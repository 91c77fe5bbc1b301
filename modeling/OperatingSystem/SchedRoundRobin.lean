import OperatingSystem.SchedConserving

/-!
# Round robin

`rr_schedule` puts an unfinished current process at the end of the ready queue and takes the
first process off it. When the ready queue is empty it looks at the current process without a
test whether there is one, so it follows a null pointer in the second of two idle ticks, and
in the first tick of a simulation if no process starts then.
-/

namespace OperatingSystem.Sched

variable {n : Nat} {policy : Policy n}

/-! ## The callback -/

section Callback

variable {s : Sim n}

theorem contenders_eq (hdone : s.BlockedDone) : s.contenders = s.candidates := by
  rcases Option.eq_none_or_eq_some s.current with hcurrent | ⟨p, hcurrent⟩
  · rw [candidates_of_null hcurrent]
    simp [Sim.contenders, Sim.unfinished, hcurrent]
  · rw [Sim.contenders, unfinished_of_current hcurrent]
    by_cases hage : (s.procs p).age < (s.procs p).lifespan
    · simp [candidates_of_unfinished hdone hcurrent hage, hage]
    · simp [candidates_of_finished hcurrent hage, hage]

/-- `rr_schedule` takes the first contender off their sequence. -/
theorem rrSchedule_eq (hsome : s.current ≠ none ∨ s.readyqueue ≠ []) :
    rrSchedule s = .ok (s.contenders.head?, { s with readyqueue := s.contenders.tail }) := by
  rcases Option.eq_none_or_eq_some s.current with hcurrent | ⟨p, hcurrent⟩
  · obtain ⟨first, rest, hready⟩ :=
      List.exists_cons_of_ne_nil (hsome.resolve_left (by simp [hcurrent]))
    have hcontenders : s.contenders = first :: rest := by
      simp [Sim.contenders, Sim.unfinished, hcurrent, hready]
    rw [hcontenders]
    simp [rrSchedule, hcurrent, hready]
  · have hunfinished := unfinished_of_current hcurrent
    cases hready : s.readyqueue with
    | nil =>
        have hcontenders : s.contenders = s.unfinished.toList := by
          rw [Sim.contenders, hready, List.nil_append]
        have hsame : { s with readyqueue := [] } = s := by rw [← hready]
        rw [hcontenders, hunfinished]
        by_cases hage : (s.procs p).age < (s.procs p).lifespan
        · have hschedule : rrSchedule s = .ok (some p, s) := by
            simp only [rrSchedule, hcurrent, hready, if_pos hage]
          rw [hschedule, if_pos hage]
          exact congrArg (fun s => Except.ok (some p, s)) hsame.symm
        · have hschedule : rrSchedule s = .ok (none, s) := by
            simp only [rrSchedule, hcurrent, hready, if_neg hage]
          rw [hschedule, if_neg hage]
          exact congrArg (fun s => Except.ok (none, s)) hsame.symm
    | cons first rest =>
        rw [Sim.contenders, hunfinished]
        by_cases hage : (s.procs p).age < (s.procs p).lifespan
        · simp [rrSchedule, hcurrent, hready, hage]
        · simp [rrSchedule, hcurrent, hready, hage]

/-- Without a current process and without ready ones it follows a null pointer. -/
theorem rrSchedule_crash (hcurrent : s.current = none) (hready : s.readyqueue = []) :
    rrSchedule s = .error .nullPointer := by
  simp only [rrSchedule, hcurrent, hready]

theorem rrSchedule_crash_iff :
    rrSchedule s = .error .nullPointer ↔ s.current = none ∧ s.readyqueue = [] := by
  constructor
  · intro hcrash
    by_contra hsome
    rw [not_and_or] at hsome
    rw [rrSchedule_eq hsome] at hcrash
    cases hcrash
  · exact fun hnone => rrSchedule_crash hnone.1 hnone.2

theorem rr_completed_eq (hdone : s.BlockedDone) : rrScheduler.completed.schedule s =
    .ok (s.contenders.head?, { s with readyqueue := s.contenders.tail }) := by
  by_cases hsome : s.current ≠ none ∨ s.readyqueue ≠ []
  · have hschedule : rrScheduler.schedule s = _ := rrSchedule_eq hsome
    simp only [Scheduler.completed, hschedule, if_pos hdone]
  · rw [not_or, not_not, not_not] at hsome
    obtain ⟨hcurrent, hready⟩ := hsome
    have hcrash : rrScheduler.schedule s = _ := rrSchedule_crash hcurrent hready
    have hcontenders : s.contenders = [] := by
      simp [Sim.contenders, Sim.unfinished, hcurrent, hready]
    have hrunning : s.running = none := by simp [Sim.running, hcurrent]
    simp only [Scheduler.completed, hcrash, fifoSchedule, hrunning, pickNext, hready, hcontenders,
      List.head?_nil, List.tail_nil]
    rw [← hready]

end Callback

/-! ## Idle ticks -/

/-- When there is no current process at a head. -/
structure Sim.Idled (script : Script n) (s : Sim n) : Prop where
  first : s.ticks = 0 → s.current = none
  idle : ∀ tick, s.ticks = tick + 1 → (s.current = none ↔ script.backlog tick = 0)
  expects : ∀ tick, s.ticks = tick + 1 → s.current = none → ∃ p, tick < (script p).start

theorem start_idled (script : Script n) : script.load.Idled script where
  first := fun _ => rfl
  idle := fun tick htick => absurd htick (Nat.succ_ne_zero tick).symm
  expects := fun tick htick => absurd htick (Nat.succ_ne_zero tick).symm

theorem backlog_ne_zero {script : Script n} (hlives : ∀ p, 1 ≤ (script p).lifespan) {p : Fin n}
    {tick : Nat} (hstart : (script p).start = tick) : script.backlog tick ≠ 0 := by
  intro hzero
  have harrivals : script.arrivals tick = 0 := Nat.eq_zero_of_add_eq_zero_left hzero
  have hterm := Finset.sum_eq_zero_iff.mp harrivals p (Finset.mem_univ p)
  rw [if_pos hstart] at hterm
  exact absurd (hlives p) (by omega)

/-- After an idle tick there is work only if a process starts. -/
theorem backlog_idle {script : Script n} {tick : Nat} (hzero : script.backlog tick = 0)
    (hnone : ∀ p, (script p).start ≠ tick + 1) : script.backlog (tick + 1) = 0 := by
  have harrivals : script.arrivals (tick + 1) = 0 :=
    Finset.sum_eq_zero fun p _ => if_neg (hnone p)
  have hpending : script.pending (tick + 1) = script.backlog tick - 1 := rfl
  rw [Script.backlog, hpending, hzero, harrivals]

theorem Sim.Idled.advance {script : Script n} {s now after : Sim n} {next : Option (Fin n)}
    (hhead : s.Head script) (hbusy : s.Busy script)
    (hturn : Turn policy (__forkOnSchedule s) next after) (hadvanced : s.Advanced now next)
    (hlate : next = none → ∃ p, s.ticks < (script p).start) : now.Idled script := by
  have hticks := hadvanced.ticks
  constructor
  case first =>
    intro hzero
    omega
  case idle =>
    intro tick htick
    obtain rfl : s.ticks = tick := by omega
    rw [hadvanced.current]
    exact hbusy.idle_iff hhead hturn
  case expects =>
    intro tick htick hnone
    obtain rfl : s.ticks = tick := by omega
    exact hlate (hadvanced.current.symm.trans hnone)

section Lawful

variable {sched : Scheduler n} (hlaw : Lawful sched policy) {script : Script n}
  (hplain : script.Plain) (hlives : ∀ p, 1 ≤ (script p).lifespan)

/-- The simulation has been at a head of the tick. -/
def Scheduler.Visits (sched : Scheduler n) (script : Script n) (tick : Nat) : Prop :=
  ∃ s, (sched.machine script).Reachable ⟨.iterate, s⟩ ∧ s.ticks = tick

include hlaw hplain hlives

/-- The head from which a configuration has come, and those before it. -/
theorem lawful_heads {c : Config n} {log : List (Line n)}
    (hreach : (sched.logged script).Reachable (c, log)) :
    ∃ (s : Sim n) (lines : List (Line n)), s.Head script ∧ s.Busy script ∧ s.Idled script ∧
      (∀ tick ≤ s.ticks, sched.Visits script tick) ∧
      c.pc.Within sched policy s lines c.sim (timeline log) := by
  have hsmooth : ∀ c, (sched.machine script).Reachable c → c.Smooth := fun _ =>
    plain_smooth hlaw hplain hlives
  have hheads : ∀ {head : Sim n} {before : List (Line n)},
      (sched.logged script).Reachable (⟨.iterate, head⟩, before) → head.Head script :=
    fun hhead => reachable_head hlaw (hplain.regular hlives) hsmooth (reachable_of_logged hhead)
  have hvisited : ∀ {s now : Sim n} {before : List (Line n)} {next : Option (Fin n)},
      (sched.logged script).Reachable (⟨.iterate, s⟩, before) → s.Advanced now next →
      (∀ tick < s.ticks, sched.Visits script tick) →
      ∀ tick < now.ticks, sched.Visits script tick := by
    intro s now before next hhead hadvanced hvisits tick htick
    rw [hadvanced.ticks] at htick
    rcases Nat.lt_succ_iff_lt_or_eq.mp htick with hlt | rfl
    · exact hvisits tick hlt
    · exact ⟨s, reachable_of_logged hhead, rfl⟩
  obtain ⟨s, before, hhead, ⟨hbusy, hidled, hvisits⟩, hwithin⟩ :=
    round_invariant hlaw hsmooth (fun s _ => s.Busy script ∧ s.Idled script ∧
        ∀ tick < s.ticks, sched.Visits script tick)
      ⟨start_busy script, start_idled script, fun _ htick => absurd htick (Nat.not_lt_zero _)⟩ (by
        rintro s before after hreach ⟨hbusy, -, hvisits⟩ ⟨hturn, -⟩ hforks
        have hhead := hheads hreach
        have hadvanced := hturn.advanced_idle hhead
        refine ⟨hbusy.advance hhead hturn hadvanced, ?_, hvisited hreach hadvanced hvisits⟩
        apply Sim.Idled.advance hhead hbusy hturn hadvanced
        intro _
        obtain ⟨q, hq⟩ := List.exists_mem_of_ne_nil _ hforks
        rw [hturn.forkqueue] at hq
        exact ⟨q, (hbusy.forked_iff q).mp hq⟩) (by
        rintro s before after p now hreach ⟨hbusy, -, hvisits⟩ ⟨hturn, -⟩ hsame
        have hhead := hheads hreach
        have hadvanced := hturn.advanced_run hhead hsame
        refine ⟨hbusy.advance hhead hturn hadvanced, ?_, hvisited hreach hadvanced hvisits⟩
        apply Sim.Idled.advance hhead hbusy hturn hadvanced
        intro hnone
        cases hnone) hreach
  refine ⟨s, timeline before, hheads hhead, hbusy, hidled, fun tick htick => ?_, hwithin⟩
  rcases htick.lt_or_eq with hlt | rfl
  · exact hvisits tick hlt
  · exact ⟨s, reachable_of_logged hhead, rfl⟩

theorem lawful_head {s : Sim n} (hreach : (sched.machine script).Reachable ⟨.iterate, s⟩) :
    s.Head script ∧ s.Busy script ∧ s.Idled script := by
  obtain ⟨log, hlog⟩ : ∃ log, (sched.logged script).Reachable (⟨.iterate, s⟩, log) :=
    hreach.exists_log
  obtain ⟨head, _, hhead, hbusy, hidled, -, hwithin⟩ := lawful_heads hlaw hplain hlives hlog
  obtain rfl : s = head := hwithin.1
  exact ⟨hhead, hbusy, hidled⟩

end Lawful

/-! ## Surviving idle ticks -/

/-- `rr_schedule` follows no null pointer, and returns null exactly if nothing can run. -/
def Sim.TakesTurns (s : Sim n) : Prop :=
  ∃ next after, rrSchedule s = .ok (next, after) ∧ (next = none ↔ s.contenders = [])

/-- At every head of the main loop `rr_schedule` takes turns, and the simulation runs to its
end, with every process exited. -/
def Script.Survives (script : Script n) : Prop :=
  (∀ c, (rrScheduler.machine script).Reachable c → c.pc = .iterate →
    (__forkOnSchedule c.sim).TakesTurns) ∧
  ∃ s log, (rrScheduler.logged script).Reachable (⟨.finished, s⟩, log) ∧ Complete script log

/-- A process starts at tick 0; and after a tick at which all that have started are done, one
starts at once, if any is still to start. -/
def Script.Fed (script : Script n) : Prop :=
  (∃ p, (script p).start = 0) ∧
  ∀ tick, script.backlog tick = 0 → (∃ p, tick < (script p).start) →
    ∃ p, (script p).start = tick + 1

theorem takesTurns_iff {s : Sim n} : s.TakesTurns ↔ rrSchedule s ≠ .error .nullPointer := by
  constructor
  · rintro ⟨next, after, hschedule, -⟩ hcrash
    rw [hschedule] at hcrash
    cases hcrash
  · rw [ne_eq, rrSchedule_crash_iff, not_and_or]
    intro hsome
    refine ⟨_, _, rrSchedule_eq hsome, ?_⟩
    simp

section Survival

variable {script : Script n} (hplain : script.Plain) (hlives : ∀ p, 1 ≤ (script p).lifespan)

include hplain hlives

/-- A crash at a head: no process is current, and there is no work. -/
theorem rr_crash {s : Sim n}
    (hreach : (rrScheduler.completed.machine script).Reachable ⟨.iterate, s⟩) :
    rrSchedule (__forkOnSchedule s) = .error .nullPointer ↔
      s.current = none ∧ script.backlog s.ticks = 0 := by
  obtain ⟨hhead, hbusy, -⟩ := lawful_head rrScheduler_blind.completed_lawful hplain hlives hreach
  rw [rrSchedule_crash_iff, ← hbusy.candidates_iff hhead]
  refine and_congr_right fun hcurrent => ?_
  have hnull : (__forkOnSchedule s).current = none := hcurrent
  rw [candidates_of_null hnull]

theorem Script.Fed.survives (hfed : script.Fed) : script.Survives := by
  have hblind : Blind (rrScheduler : Scheduler n) := rrScheduler_blind
  have hok : ∀ c, (rrScheduler.completed.machine script).Reachable c → c.pc = .iterate →
      rrSchedule (__forkOnSchedule c.sim) ≠ .error .nullPointer := by
    rintro ⟨pc, s⟩ hreach hpc hcrash
    obtain rfl : pc = .iterate := hpc
    obtain ⟨hcurrent, hzero⟩ := (rr_crash hplain hlives hreach).mp hcrash
    obtain ⟨-, -, hidled⟩ := lawful_head hblind.completed_lawful hplain hlives hreach
    obtain ⟨⟨first, hfirst⟩, hnext⟩ := hfed
    cases hticks : s.ticks with
    | zero =>
        rw [hticks] at hzero
        exact backlog_ne_zero hlives hfirst hzero
    | succ tick =>
        have hbefore := (hidled.idle tick hticks).mp hcurrent
        obtain ⟨p, hp⟩ := hnext tick hbefore (hidled.expects tick hticks hcurrent)
        rw [hticks] at hzero
        exact backlog_ne_zero hlives hp hzero
  constructor
  · intro c hreach hpc
    have hcompleted := (hblind.plain_reachable hplain hreach).resolve_right (by simp [hpc])
    exact takesTurns_iff.mpr (hok c hcompleted hpc)
  · obtain ⟨s, log, hreach, -, -, hcomplete⟩ :=
      lawful_conserves hblind.completed_lawful hplain hlives
    exact ⟨s, log, (hblind.plain_logged hplain hok).mpr hreach, hcomplete⟩

theorem Script.Survives.fed (hsurvives : script.Survives) : script.Fed := by
  have hblind : Blind (rrScheduler : Scheduler n) := rrScheduler_blind
  have hlaw := hblind.completed_lawful
  obtain ⟨hturns, -⟩ := hsurvives
  -- the completed scheduler never has to step in
  have hboth : ∀ c, (rrScheduler.completed.machine script).Reachable c →
      (rrScheduler.machine script).Reachable c := by
    intro c hreach
    apply hreach.invariant fun c => (rrScheduler.machine script).Reachable c
    · exact Machine.reachable_init
    · rintro c - next hcompleted hstate rfl
      have hok := fun hpc => takesTurns_iff.mp (hturns c hstate hpc)
      rw [← hblind.plain_next hplain hcompleted hok]
      exact reachable_next hstate
  have hnever : ∀ s, (rrScheduler.completed.machine script).Reachable ⟨.iterate, s⟩ →
      ¬ (s.current = none ∧ script.backlog s.ticks = 0) := by
    intro s hreach hnone
    exact takesTurns_iff.mp (hturns _ (hboth _ hreach) rfl)
      ((rr_crash hplain hlives hreach).mpr hnone)
  constructor
  · by_contra hlate
    rw [not_exists] at hlate
    refine hnever script.load Machine.reachable_init ⟨rfl, ?_⟩
    have harrivals : script.arrivals 0 = 0 := Finset.sum_eq_zero fun p _ => if_neg (hlate p)
    show 0 + script.arrivals 0 = 0
    rw [harrivals]
  · rintro tick hzero ⟨p, hp⟩
    by_contra hgap
    rw [not_exists] at hgap
    obtain ⟨last, log, hreach, ⟨hover, -⟩, -⟩ := lawful_conserves hlaw hplain hlives
    obtain ⟨head, _, -, -, -, hvisits, hwithin⟩ := lawful_heads hlaw hplain hlives hreach
    have hticks : last.ticks = head.ticks := hwithin.2.1.turn.ticks
    have hstart := hover.2 p
    obtain ⟨s, hvisit, htick⟩ := hvisits (tick + 1) (by omega)
    obtain ⟨-, -, hidled⟩ := lawful_head hlaw hplain hlives hvisit
    refine hnever s hvisit ⟨(hidled.idle tick htick).mpr hzero, ?_⟩
    rw [htick]
    exact backlog_idle hzero hgap

/-- **Round robin survives idling**, as long as it never idles for two ticks in a row, and not in
the first tick. -/
theorem rr_survives : script.Survives ↔ script.Fed :=
  ⟨Script.Survives.fed hplain hlives, Script.Fed.survives hplain hlives⟩

end Survival

/-- The second process starts one tick after the first one is done. -/
def resumed : Script 2 := ![⟨1, 0, 1, 0, []⟩, ⟨2, 2, 1, 0, []⟩]

theorem rr_survives_resumed : resumed.Survives := by
  refine (rr_survives (Fin.forall_fin_two.mpr ⟨rfl, rfl⟩) (by decide)).mpr ⟨⟨0, rfl⟩, ?_⟩
  rintro tick hzero ⟨p, hp⟩
  have hstarts : ∀ p, (resumed p).start ≤ 2 := by decide
  have htick : tick < 2 := hp.trans_le (hstarts p)
  obtain rfl | rfl : tick = 0 ∨ tick = 1 := by omega
  · exact absurd hzero (by decide +kernel)
  · exact ⟨1, rfl⟩

/-- One process, which starts at tick 1. -/
def tardy : Script 1 := ![⟨1, 1, 1, 0, []⟩]

/-- The first call of `rr_schedule` on `tardy` follows a null pointer. -/
theorem tardy_crashes : tardy.Plain ∧ (∀ p, 1 ≤ (tardy p).lifespan) ∧ ¬ tardy.Survives ∧
    (rrScheduler.next tardy.start).pc = .failed .nullPointer := by
  refine ⟨Fin.forall_fin_one.mpr rfl, by decide, ?_, by decide +kernel⟩
  rintro ⟨hturns, -⟩
  have hcrash : rrSchedule (__forkOnSchedule tardy.load) = .error .nullPointer :=
    rrSchedule_crash rfl (by decide +kernel)
  exact takesTurns_iff.mp (hturns _ Machine.reachable_init rfl) hcrash

end OperatingSystem.Sched
