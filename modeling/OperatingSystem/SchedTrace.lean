import OperatingSystem.SchedPlain

/-!
# What a simulation prints

The events that the simulation prints, with the tick of each. A step prints what the branch
that it takes prints, so for a lawful scheduler the events can be read off from the states
before and after the step.
-/

namespace OperatingSystem.Sched

variable {n : Nat} {policy : Policy n}

/-- What `__print_event` and the idle branch report. The events of a request keep the whole
entry, of which only the resource is printed. -/
inductive Event (n : Nat) where
  /-- `"N"` -/
  | forked (p : Fin n)
  /-- `"X"` -/
  | exited (p : Fin n)
  /-- `"+%d"` -/
  | acquired (p : Fin n) (rs : ResourceSchedule)
  /-- `"="` -/
  | blocked (p : Fin n) (rs : ResourceSchedule)
  /-- `"%d"`, the process ages -/
  | ran (p : Fin n)
  /-- `"-%d"` -/
  | released (p : Fin n) (rs : ResourceSchedule)
  /-- `"idle"` -/
  | idle
deriving DecidableEq

/-- A printed line: the tick and the event. -/
abbrev Line (n : Nat) := Nat × Event n

/-- The processes that `__fork_on_schedule` forks. -/
def Sim.due (s : Sim n) : List (Fin n) := s.forkqueue.filter fun p => (s.procs p).startsAt ≤ s.ticks

/-- The process that is decommissioned in the next iteration. -/
def Sim.retiring (s : Sim n) : List (Fin n) :=
  s.current.toList.filter fun p => (s.procs p).age = (s.procs p).lifespan

/-- The events of an iteration up to `__run_current_acquire`. -/
def iterationEvents (sched : Scheduler n) (s : Sim n) : List (Event n) :=
  s.due.map .forked ++
    let s := __forkOnSchedule s
    match sched.schedule s with
    | .error _ => []
    | .ok (next, after) =>
      match updatePrev { after with current := next } s.current with
      | .error _ => []
      | .ok after =>
        s.retiring.map .exited ++
          if next = none ∧ ¬ (after.readyqueue = [] ∧ after.forkqueue = []) then [.idle] else []

/-- The events of one step of `__do_simulation`. -/
def Scheduler.events (sched : Scheduler n) (c : Config n) : List (Event n) :=
  match c.pc with
  | .iterate => iterationEvents sched c.sim
  | .acquire p _ (rs :: _) =>
    if rs.atAge = (c.sim.procs p).age then
      [if (sched.acquire c.sim p rs.resourceId).1 then .acquired p rs else .blocked p rs]
    else []
  | .acquire p _ [] => [.ran p]
  | .release p kept (rs :: todo) =>
    if rs.countDown.duration = 0 then
      match sched.release (c.sim.setHolding p (kept ++ rs.countDown :: todo)) p rs.resourceId with
      | .ok _ => [.released p rs]
      | .error _ => []
    else []
  | .release _ _ [] | .finished | .failed _ => []

def Scheduler.lines (sched : Scheduler n) (c : Config n) : List (Line n) :=
  (sched.events c).map fun event => (c.sim.ticks, event)

/-- The simulation of a script, with all that it has printed. -/
def Scheduler.logged (sched : Scheduler n) (script : Script n) :
    Machine (Config n × List (Line n)) Unit :=
  .logged script.start sched.next sched.lines

/-- The simulation of a script after a number of steps, with what it has printed. -/
def Scheduler.play (sched : Scheduler n) (script : Script n) (count : Nat) :
    Config n × List (Line n) :=
  (fun logged => (sched.next logged.1, logged.2 ++ sched.lines logged.1))^[count] (script.start, [])

theorem play_reachable (sched : Scheduler n) (script : Script n) (count : Nat) :
    (sched.logged script).Reachable
      ((sched.play script count).1, (sched.play script count).2) :=
  Machine.reachable_iterate _ _ count

theorem lines_congr {first second : Scheduler n} (hacquire : first.acquire = second.acquire)
    (hrelease : first.release = second.release) {c : Config n} (hschedule : c.pc = .iterate →
      first.schedule (__forkOnSchedule c.sim) = second.schedule (__forkOnSchedule c.sim)) :
    first.lines c = second.lines c := by
  have hevents : first.events c = second.events c := by
    obtain ⟨pc, s⟩ := c
    cases pc with
    | iterate => simp only [Scheduler.events, iterationEvents, hschedule rfl]
    | acquire p skipped todo =>
        cases todo with
        | nil => rfl
        | cons rs todo => simp only [Scheduler.events, hacquire]
    | release p kept todo =>
        cases todo with
        | nil => rfl
        | cons rs todo => simp only [Scheduler.events, hrelease]
    | finished | failed => rfl
  rw [Scheduler.lines, hevents]
  rfl

/-- The events of a step, read off from the two states. -/
def Config.printed (c next : Config n) : List (Event n) :=
  match c.pc, next.pc with
  | .iterate, .failed _ => c.sim.due.map .forked
  | .iterate, .iterate => c.sim.due.map .forked ++ c.sim.retiring.map .exited ++ [.idle]
  | .iterate, _ => c.sim.due.map .forked ++ c.sim.retiring.map .exited
  | .acquire p _ (rs :: _), .iterate => [.blocked p rs]
  | .acquire p _ (rs :: _), _ =>
    if rs.atAge = (c.sim.procs p).age then [.acquired p rs] else []
  | .acquire p _ [], _ => [.ran p]
  | .release p _ (rs :: _), _ => if rs.duration = 1 then [.released p rs] else []
  | _, _ => []

/-! ## Reading the events off -/

theorem exitProcess_same {s after : Sim n} {p : Fin n} (hexit : __exitProcess s p = .ok after) :
    after = s := by
  unfold __exitProcess at hexit
  split_ifs at hexit
  exact (Except.ok.inj hexit).symm

/-- The update of the previous process changes statuses only. -/
theorem updatePrev_same {s after : Sim n} {prev : Option (Fin n)}
    (hupdate : updatePrev s prev = .ok after) : after = { s with procs := after.procs } := by
  cases prev with
  | none =>
      obtain rfl : s = after := Except.ok.inj hupdate
      rfl
  | some p =>
      simp only [updatePrev] at hupdate
      split_ifs at hupdate
      · rw [exitProcess_same hupdate]
        rfl
      · rw [← Except.ok.inj hupdate]
        rfl
      · rw [exitProcess_same hupdate]
        rfl
      · rw [← Except.ok.inj hupdate]

theorem forkOnSchedule_retiring {s : Sim n} (hqueued : s.Queued) :
    (__forkOnSchedule s).retiring = s.retiring := by
  simp only [Sim.retiring, forkOnSchedule_procs hqueued]
  rfl

theorem iterationEvents_eq {sched : Scheduler n} (hlaw : Lawful sched policy) {s : Sim n}
    (hwf : (⟨.iterate, s⟩ : Config n).WellFormed) :
    iterationEvents sched s = Config.printed ⟨.iterate, s⟩ (sched.next ⟨.iterate, s⟩) := by
  have hretiring := forkOnSchedule_retiring hwf.queued
  have hfault : ∀ fault, (sched.next ⟨.iterate, s⟩).pc = .failed fault → fault.OfExit := by
    intro fault hfail
    exact (next_fault hlaw hwf hfail).resolve_left (by simp)
  obtain ⟨next, queue, hschedule, -⟩ := hlaw.schedule (__forkOnSchedule s) fun q hq =>
    ((forkOnSchedule_queued hwf.queued).ready q hq).2
  simp only [iterationEvents, hschedule, hretiring]
  simp only [Scheduler.next, iteration, hschedule, ok_bind] at hfault ⊢
  cases hupdate : updatePrev { __forkOnSchedule s with readyqueue := queue, current := next }
      (__forkOnSchedule s).current with
  | error fault => simp [Config.printed, bind, Except.bind]
  | ok after =>
      have hcurrent : after.current = next := by rw [updatePrev_same hupdate]
      simp only [hupdate, ok_bind, runCurrent, hcurrent] at hfault ⊢
      cases next with
      | none =>
          by_cases hempty : after.readyqueue = [] ∧ after.forkqueue = []
          · simp [hempty, Config.printed]
          · simp [hempty, Config.printed]
      | some p =>
          by_cases hlinked : (after.setStatus p .running).linked p
          · simpa [hlinked, Fault.OfExit] using hfault .currentLinked
          · simp [hlinked, Config.printed]

theorem events_eq {sched : Scheduler n} (hlaw : Lawful sched policy) {c : Config n}
    (hwf : c.WellFormed) : sched.events c = c.printed (sched.next c) := by
  have heffect := step_effect hlaw hwf
  obtain ⟨pc, s⟩ := c
  cases pc with
  | iterate => exact iterationEvents_eq hlaw hwf
  | acquire p skipped todo =>
      cases todo with
      | nil => rfl
      | cons rs todo =>
          by_cases hage : rs.atAge = (s.procs p).age
          · cases howner : (s.resources rs.resourceId).owner with
            | none =>
                have hacquire := hlaw.acquire_free s p _ howner
                simp [Scheduler.events, Scheduler.next, acquireEntry, hage, hacquire,
                  Config.printed]
            | some q =>
                have hacquire := hlaw.acquire_owned s p _ q howner
                simp [Scheduler.events, Scheduler.next, acquireEntry, hage, hacquire,
                  Config.printed]
          · simp [Scheduler.events, Scheduler.next, acquireEntry, hage, Config.printed]
  | release p kept todo =>
      cases todo with
      | nil => rfl
      | cons rs todo =>
          by_cases hduration : rs.duration = 1
          · have hzero : rs.countDown.duration = 0 := by
              simp [ResourceSchedule.countDown, hduration]
            cases hrelease : sched.release (s.setHolding p (kept ++ rs.countDown :: todo)) p
                rs.resourceId with
            | ok after =>
                simp [Scheduler.events, hzero, hrelease, hduration, Config.printed]
            | error fault =>
                simp only [Scheduler.next, releaseEntry, if_pos hzero, countDown_resourceId,
                  hrelease] at heffect
                cases heffect
          · have hnonzero : rs.countDown.duration ≠ 0 := by
              simp only [ResourceSchedule.countDown]
              omega
            simp [Scheduler.events, hnonzero, hduration, Config.printed]
  | finished | failed => rfl

/-! ## Invariants of logs -/

section Runs

variable {sched : Scheduler n} {script : Script n} {c : Config n} {log : List (Line n)}

theorem reachable_of_logged (hreach : (sched.logged script).Reachable (c, log)) :
    (sched.machine script).Reachable c :=
  hreach.of_logged

/-- The lines of a step of a lawful scheduler. -/
def Config.printedLines (c next : Config n) : List (Line n) :=
  (c.printed next).map fun event => (c.sim.ticks, event)

theorem lines_eq (hlaw : Lawful sched policy) (hwf : c.WellFormed) :
    sched.lines c = c.printedLines (sched.next c) := by
  rw [Scheduler.lines, events_eq hlaw hwf]
  rfl

/-- The invariant rule for simulations and what they print. -/
theorem logged_invariant (hlaw : Lawful sched policy) (Inv : Config n → List (Line n) → Prop)
    (hinit : Inv script.start [])
    (hstep : ∀ c next log, (sched.machine script).Reachable c → c.WellFormed →
      Effect policy c next → Inv c log → Inv next (log ++ c.printedLines next))
    (hreach : (sched.logged script).Reachable (c, log)) : Inv c log := by
  apply hreach.logged_invariant Inv hinit
  intro state lines hstate hinv
  have hstate := reachable_of_logged hstate
  have hwf := reachable_wellFormed hlaw hstate
  rw [lines_eq hlaw hwf]
  exact hstep state _ lines hstate hwf (step_effect hlaw hwf) hinv

/-- The line says what became of a tick. -/
def Event.passing : Event n → Bool
  | .ran _ | .blocked _ _ | .idle => true
  | _ => false

/-- The number of ticks of which it has been printed what became of them. -/
def Config.passed (c : Config n) : Nat :=
  match c.pc with
  | .release _ _ _ => c.sim.ticks + 1
  | _ => c.sim.ticks

/-- The ticks that the lines of a step say something of. -/
theorem Effect.passing {next : Config n} (heffect : Effect policy c next) :
    List.range c.passed ++ ((c.printedLines next).filter fun line => line.2.passing).map Prod.fst =
      List.range next.passed := by
  cases heffect with
  | @finish s after hturn | @dispatch s after _ hturn =>
      have hticks : after.ticks = s.ticks := hturn.ticks
      simp [Config.printedLines, Config.printed, Config.passed, Function.comp_def, List.filter_map,
        Event.passing, hticks]
  | @idle s after hturn =>
      have hticks : after.tick.ticks = s.ticks + 1 := congrArg (· + 1) hturn.ticks
      simp [Config.printedLines, Config.printed, Config.passed, Function.comp_def, List.filter_map,
        Event.passing, hticks, List.range_succ]
  | refuse =>
      simp [Config.printedLines, Config.printed, Config.passed, Function.comp_def, List.filter_map,
        Event.passing]
  | @skip s p skipped todo rs hage =>
      simp [Config.printedLines, Config.printed, Config.passed, hage]
  | @grant s p skipped todo rs hage =>
      have hticks : (s.granted p (policy.granted s p) rs (skipped ++ todo)).ticks = s.ticks := rfl
      simp [Config.printedLines, Config.printed, Config.passed, hage, Event.passing, hticks]
  | @block s p q skipped todo rs =>
      have hticks : (s.blocked p (policy.blocked s p q) rs.resourceId).ticks = s.ticks + 1 := rfl
      simp [Config.printedLines, Config.printed, Config.passed, Event.passing, hticks,
        List.range_succ]
  | @grow s p =>
      have hticks : (s.grow p).ticks = s.ticks := rfl
      simp [Config.printedLines, Config.printed, Config.passed, Event.passing, hticks,
        List.range_succ]
  | @keep s p kept todo rs hduration =>
      have hticks : (s.setHolding p (kept ++ rs.countDown :: todo)).ticks = s.ticks := rfl
      simp [Config.printedLines, Config.printed, Config.passed, hduration, hticks]
  | @drop s p kept todo rs prios hduration =>
      have hticks : (s.freed p prios rs.resourceId (kept ++ todo)).ticks = s.ticks := rfl
      simp [Config.printedLines, Config.printed, Config.passed, hduration, Event.passing, hticks]
  | @wake s p first waiter rest kept todo rs prios hduration =>
      have hticks : ((s.freed p prios rs.resourceId (kept ++ todo)).moveToReady rs.resourceId
        waiter).ticks = s.ticks := rfl
      simp [Config.printedLines, Config.printed, Config.passed, hduration, Event.passing, hticks]
  | @tick s =>
      have hticks : s.tick.ticks = s.ticks + 1 := rfl
      simp [Config.printedLines, Config.printed, Config.passed, hticks]
  | finished | failed => simp [Config.printedLines, Config.printed, Config.passed]

/-- Every tick has one line that says what became of it. -/
theorem logged_ticks (hlaw : Lawful sched policy)
    (hreach : (sched.logged script).Reachable (c, log)) :
    (log.filter fun line => line.2.passing).map Prod.fst = List.range c.passed := by
  apply logged_invariant hlaw
    (fun c log => (log.filter fun line => line.2.passing).map Prod.fst = List.range c.passed) rfl
  · intro c next log _ _ heffect hticks
    rw [List.filter_append, List.map_append, hticks, heffect.passing]
  · exact hreach

/-- Two runs of one simulation run the same process at a tick. -/
theorem ran_unique (hlaw : Lawful sched policy)
    (hreach : (sched.logged script).Reachable (c, log)) {c' : Config n} {log' : List (Line n)}
    (hreach' : (sched.logged script).Reachable (c', log')) {tick : Nat} {p q : Fin n}
    (hp : (tick, .ran p) ∈ log) (hq : (tick, .ran q) ∈ log') : p = q := by
  obtain ⟨c, log, hreach, hp, hq⟩ : ∃ c log, (sched.logged script).Reachable (c, log) ∧
      (tick, Event.ran p) ∈ log ∧ (tick, Event.ran q) ∈ log := by
    rcases Machine.logged_isPrefix hreach hreach' with hle | hle
    · exact ⟨c', log', hreach', hle.subset hp, hq⟩
    · exact ⟨c, log, hreach, hp, hle.subset hq⟩
  have hnodup : ((log.filter fun line => line.2.passing).map Prod.fst).Nodup := by
    rw [logged_ticks hlaw hreach]
    exact List.nodup_range
  have hsame := List.inj_on_of_nodup_map hnodup
    (List.mem_filter.mpr ⟨hp, rfl⟩) (List.mem_filter.mpr ⟨hq, rfl⟩) rfl
  simpa using hsame

/-- A process that has run has aged. -/
theorem ran_age (hlaw : Lawful sched policy) (hreach : (sched.logged script).Reachable (c, log))
    {tick : Nat} {p : Fin n} (hran : (tick, .ran p) ∈ log) : 1 ≤ (c.sim.procs p).age := by
  revert hran
  apply logged_invariant hlaw (fun c log => (tick, .ran p) ∈ log → 1 ≤ (c.sim.procs p).age)
  · simp
  · intro c next log _ hwf heffect hage hran
    rw [heffect.age hwf]
    rcases List.mem_append.mp hran with hran | hran
    · have hold := hage hran
      omega
    · have hgrowing : c.pc.growing = some p := by
        obtain ⟨event, hevent, hline⟩ := List.mem_map.mp hran
        obtain rfl : event = .ran p := congrArg Prod.snd hline
        cases heffect <;> simp_all [Config.printed, Pc.growing]
      rw [if_pos hgrowing]
      omega
  · exact hreach

/-- On a plain script a step of a blind scheduler that does not crash is one of the completed
scheduler, and prints the same. -/
theorem Blind.plain_step (hblind : Blind sched) (hplain : script.Plain)
    (hreach : (sched.completed.machine script).Reachable c)
    (hok : c.pc = .iterate → sched.schedule (__forkOnSchedule c.sim) ≠ .error .nullPointer) :
    sched.next c = sched.completed.next c ∧ sched.lines c = sched.completed.lines c := by
  refine ⟨hblind.plain_next hplain hreach hok, ?_⟩
  have hwf := reachable_wellFormed hblind.completed_lawful hreach
  have hdone := (reachable_plain hplain hblind.completed_lawful hreach).blockedDone hwf
  exact lines_congr hblind.acquire hblind.release fun hpc =>
    (hblind.schedule_completed hwf.queued (hdone hpc) (hok hpc)).symm

/-- On a plain script a blind scheduler that does not crash prints what the completed one
prints. -/
theorem Blind.plain_logged (hblind : Blind sched) (hplain : script.Plain)
    (hok : ∀ c, (sched.completed.machine script).Reachable c → c.pc = .iterate →
      sched.schedule (__forkOnSchedule c.sim) ≠ .error .nullPointer) :
    (sched.logged script).Reachable (c, log) ↔
      (sched.completed.logged script).Reachable (c, log) := by
  apply Machine.logged_congr
  intro state hstate
  exact hblind.plain_step hplain hstate (hok state hstate)

end Runs

end OperatingSystem.Sched
