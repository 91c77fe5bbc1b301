import OperatingSystem.SchedShortest
import OperatingSystem.SchedRounds

/-!
# Work conservation

On a script without requests the amount of work that is pending at a tick depends on the
script only: every tick with pending work takes one unit of it, whichever process runs. So
the idle ticks and the end of the simulation are the same for all schedulers.
-/

namespace OperatingSystem.Sched

variable {n : Nat} {policy : Policy n}

/-! ## The workload of a script -/

namespace Script

variable (script : Script n)

/-- The work that arrives at a tick. -/
def arrivals (tick : Nat) : Nat := ∑ p, if (script p).start = tick then (script p).lifespan else 0

/-- The work left over from the ticks before. -/
def pending : Nat → Nat
  | 0 => 0
  | tick + 1 => pending tick + script.arrivals tick - 1

/-- The work that can be done at a tick. -/
def backlog (tick : Nat) : Nat := script.pending tick + script.arrivals tick

/-- Everything has arrived and is done. -/
def Over (tick : Nat) : Prop := script.backlog tick = 0 ∧ ∀ p, (script p).start ≤ tick

end Script

/-- The work that is left of the processes that have started before a tick. -/
def Sim.work (script : Script n) (s : Sim n) (tick : Nat) : Nat :=
  ∑ p, if (script p).start < tick then (script p).lifespan - (s.procs p).age else 0

theorem work_forked {script : Script n} {s : Sim n} {tick : Nat}
    (hunborn : ∀ p, (script p).start = tick → (s.procs p).age = 0) :
    s.work script (tick + 1) = s.work script tick + script.arrivals tick := by
  rw [Sim.work, Sim.work, Script.arrivals, ← Finset.sum_add_distrib]
  refine Finset.sum_congr rfl fun p _ => ?_
  rcases Nat.lt_trichotomy (script p).start tick with hlt | heq | hgt
  · simp [hlt, hlt.ne, Nat.lt_succ_of_lt hlt]
  · simp [heq, hunborn p heq]
  · rw [if_neg (by omega), if_neg (by omega), if_neg hgt.ne']

/-- The work that one tick of a process takes. -/
theorem work_run {script : Script n} {s now : Sim n} {tick : Nat} {p : Fin n}
    (hstarted : (script p).start < tick) (hage : (s.procs p).age < (script p).lifespan)
    (hself : (now.procs p).age = (s.procs p).age + 1)
    (hothers : ∀ q, q ≠ p → (now.procs q).age = (s.procs q).age) :
    now.work script tick + 1 = s.work script tick := by
  rw [Sim.work, Sim.work, ← Finset.add_sum_erase _ _ (Finset.mem_univ p),
    ← Finset.add_sum_erase _ _ (Finset.mem_univ p), if_pos hstarted, if_pos hstarted, hself]
  have hrest : ∑ q ∈ Finset.univ.erase p,
      (if (script q).start < tick then (script q).lifespan - (now.procs q).age else 0) =
      ∑ q ∈ Finset.univ.erase p,
        if (script q).start < tick then (script q).lifespan - (s.procs q).age else 0 := by
    refine Finset.sum_congr rfl fun q hq => ?_
    rw [hothers q (Finset.ne_of_mem_erase hq)]
  rw [hrest]
  omega

/-! ## The lines that open a round -/

section Opening

variable {s : Sim n}

theorem opening_forked (hnodup : s.forkqueue.Nodup) (p : Fin n) :
    s.opening.filter (fun line => line.2 = .forked p) =
      if p ∈ s.due then [(s.ticks, .forked p)] else [] := by
  have hdue : s.due.Nodup := hnodup.filter _
  have hforked : s.due.filter (fun q => q = p) = if p ∈ s.due then [p] else [] := by
    rw [List.filter_eq, hdue.count]
    split <;> rfl
  have hexited : s.retiring.filter (fun _ => false) = [] := List.filter_false _
  rw [Sim.opening, List.filter_append, List.filter_map, List.filter_map]
  simp only [Function.comp_def, Event.forked.injEq, reduceCtorEq, decide_false, hforked, hexited]
  split <;> rfl

theorem retiring_nodup (s : Sim n) : s.retiring.Nodup := by
  refine List.Nodup.filter _ ?_
  cases s.current <;> simp

theorem opening_exited (p : Fin n) :
    s.opening.countP (fun line => line.2 = .exited p) = if p ∈ s.retiring then 1 else 0 := by
  have hexited : s.retiring.countP (fun q => q = p) = if p ∈ s.retiring then 1 else 0 := by
    rw [← (retiring_nodup s).count, List.count]
    simp only [beq_eq_decide]
  have hforked : s.due.countP (fun _ => false) = 0 := congrFun List.countP_false s.due
  rw [Sim.opening, List.countP_append, List.countP_map, List.countP_map]
  simp only [Function.comp_def, Event.exited.injEq, reduceCtorEq, decide_false, hforked, hexited,
    Nat.zero_add]

theorem opening_ran (p : Fin n) : s.opening.countP (fun line => line.2 = .ran p) = 0 := by
  refine List.countP_eq_zero.mpr fun line hline => ?_
  rcases mem_opening hline with ⟨q, rfl⟩ | ⟨q, rfl⟩ <;> simp

theorem opening_ne_idle {line : Line n} (hline : line ∈ s.opening) : line.2 ≠ .idle := by
  rcases mem_opening hline with ⟨q, rfl⟩ | ⟨q, rfl⟩ <;> simp

end Opening

/-! ## The state at a head -/

/-- What the head state has of the workload. -/
structure Sim.Busy (script : Script n) (s : Sim n) : Prop where
  start : ∀ q, (s.procs q).startsAt = (script q).start
  forks : ∀ q, q ∈ s.forkqueue ↔ s.ticks ≤ (script q).start
  unborn : ∀ q ∈ s.forkqueue, (s.procs q).age = 0
  exited : ∀ q, (s.procs q).status = .exit → (s.procs q).age = (script q).lifespan
  work : s.work script s.ticks = script.pending s.ticks

section Busy

variable {script : Script n} {s : Sim n} (hbusy : s.Busy script)

include hbusy

theorem Sim.Busy.forked_iff (q : Fin n) :
    q ∈ (__forkOnSchedule s).forkqueue ↔ s.ticks < (script q).start := by
  have hmem : q ∈ (__forkOnSchedule s).forkqueue ↔
      q ∈ s.forkqueue ∧ ¬ (s.procs q).startsAt ≤ s.ticks := by simp [__forkOnSchedule]
  rw [hmem, hbusy.forks, hbusy.start]
  omega

theorem Sim.Busy.due_iff (q : Fin n) : q ∈ s.due ↔ (script q).start = s.ticks := by
  rw [mem_due, hbusy.forks, hbusy.start]
  omega

theorem Sim.Busy.backlog : s.work script (s.ticks + 1) = script.backlog s.ticks := by
  have hunborn : ∀ q, (script q).start = s.ticks → (s.procs q).age = 0 := fun q hq =>
    hbusy.unborn q ((hbusy.forks q).mpr hq.ge)
  rw [work_forked hunborn, hbusy.work]
  rfl

end Busy

section Advance

variable {script : Script n} {s now after : Sim n} {next : Option (Fin n)} {p : Fin n}
  (hhead : s.Head script)

include hhead

variable (hbusy : s.Busy script)

include hbusy

/-- There is no candidate exactly if no work is pending. -/
theorem Sim.Busy.candidates_iff :
    (__forkOnSchedule s).candidates = [] ↔ script.backlog s.ticks = 0 := by
  rw [← hbusy.backlog]
  constructor
  · intro hcandidates
    refine Finset.sum_eq_zero fun q _ => ?_
    by_cases hstart : (script q).start < s.ticks + 1
    · have hforked : q ∉ (__forkOnSchedule s).forkqueue := by
        rw [hbusy.forked_iff]
        omega
      have hage : (s.procs q).age = (script q).lifespan := by
        rcases hhead.idle_done hcandidates hforked with hexit | hretiring
        · exact hbusy.exited q hexit
        · exact (mem_retiring.mp hretiring).2.trans (hhead.lifespan q)
      simp [hage]
    · exact if_neg hstart
  · intro hzero
    refine List.eq_nil_iff_forall_not_mem.mpr fun p hcandidate => ?_
    have hyoung := hhead.candidate_young hcandidate
    have hstart : ¬ s.ticks < (script p).start := fun hlate =>
      hhead.candidate_forked hcandidate ((hbusy.forked_iff p).mpr hlate)
    have hterm := Finset.sum_eq_zero_iff.mp hzero p (Finset.mem_univ p)
    rw [if_pos (by omega)] at hterm
    rw [hhead.lifespan] at hyoung
    omega

/-- A turn is idle exactly if no work is pending. -/
theorem Sim.Busy.idle_iff (hturn : Turn policy (__forkOnSchedule s) next after) :
    next = none ↔ script.backlog s.ticks = 0 :=
  hturn.none_iff.trans (hbusy.candidates_iff hhead)

theorem Sim.Busy.advance (hturn : Turn policy (__forkOnSchedule s) next after)
    (hadvanced : s.Advanced now next) : now.Busy script := by
  have hrunning : ∀ q, next = some q → (s.procs q).age < (script q).lifespan ∧
      (script q).start < s.ticks + 1 := by
    intro q hq
    have hcandidate := hturn.next_candidate hq
    refine ⟨hhead.lifespan q ▸ hhead.candidate_young hcandidate, ?_⟩
    have hforked := (hbusy.forked_iff q).not.mp (hhead.candidate_forked hcandidate)
    omega
  have hforks : ∀ q, q ∈ now.forkqueue ↔ s.ticks + 1 ≤ (script q).start := fun q => by
    rw [hadvanced.forkqueue, hbusy.forked_iff]
    rfl
  constructor
  case start => exact fun q => (hadvanced.startsAt q).trans (hbusy.start q)
  case forks =>
    intro q
    rw [hadvanced.ticks]
    exact hforks q
  case unborn =>
    intro q hq
    have hlate := (hforks q).mp hq
    have hnext : next ≠ some q := fun hnext => absurd (hrunning q hnext).2 (by omega)
    rw [hadvanced.age, if_neg hnext]
    exact hbusy.unborn q ((hbusy.forks q).mpr (by omega))
  case exited =>
    intro q hexit
    have hage : (s.procs q).age = (script q).lifespan := by
      rcases (hadvanced.exit q).mp hexit with hexit | hretiring
      · exact hbusy.exited q hexit
      · exact (mem_retiring.mp hretiring).2.trans (hhead.lifespan q)
    have hnext : next ≠ some q := fun hnext => absurd hage (hrunning q hnext).1.ne
    rw [hadvanced.age, if_neg hnext]
    exact hage
  case work =>
    have hbacklog := hbusy.backlog
    rw [hadvanced.ticks]
    show _ = script.backlog s.ticks - 1
    cases next with
    | none =>
        have hzero := (hbusy.idle_iff hhead hturn).mp rfl
        have hsame : now.work script (s.ticks + 1) = s.work script (s.ticks + 1) := by
          simp only [Sim.work, hadvanced.age]
          simp
        omega
    | some p =>
        obtain ⟨hage, hstart⟩ := hrunning p rfl
        have hrun : now.work script (s.ticks + 1) + 1 = s.work script (s.ticks + 1) := by
          refine work_run hstart hage ?_ fun q hq => ?_
          · rw [hadvanced.age, if_pos rfl]
          · rw [hadvanced.age, if_neg (by simpa using Ne.symm hq), Nat.add_zero]
        omega

end Advance

/-! ## The timeline at a head -/

/-- All that have been forked before an idle line have run to their end and exited. -/
def IdleDone (script : Script n) (before : List (Line n)) (line : Line n) : Prop :=
  line.2 = .idle → ∀ p tick, (tick, Event.forked p) ∈ before →
    before.countP (fun line => line.2 = .ran p) = (script p).lifespan ∧
      before.countP (fun line => line.2 = .exited p) = 1

/-- What the timeline shows at a head. -/
structure Recorded (script : Script n) (s : Sim n) (log : List (Line n)) : Prop where
  forked : ∀ q, log.filter (fun line => line.2 = .forked q) =
    if (script q).start < s.ticks then [((script q).start, .forked q)] else []
  ran : ∀ q, log.countP (fun line => line.2 = .ran q) = (s.procs q).age
  exited : ∀ q, log.countP (fun line => line.2 = .exited q) =
    if (s.procs q).status = .exit then 1 else 0
  idle : ∀ tick, (tick, .idle) ∈ log ↔ tick < s.ticks ∧ script.backlog tick = 0
  earlier : ∀ tick < s.ticks, ¬ script.Over tick
  done : Along (IdleDone script) log

/-- What it shows once the round has been opened. -/
structure Opened (script : Script n) (s : Sim n) (log : List (Line n)) : Prop where
  forked : ∀ q, log.filter (fun line => line.2 = .forked q) =
    if (script q).start ≤ s.ticks then [((script q).start, .forked q)] else []
  ran : ∀ q, log.countP (fun line => line.2 = .ran q) = (s.procs q).age
  exited : ∀ q, log.countP (fun line => line.2 = .exited q) =
    if (s.procs q).status = .exit ∨ q ∈ s.retiring then 1 else 0
  idle : ∀ tick, (tick, .idle) ∈ log ↔ tick < s.ticks ∧ script.backlog tick = 0
  done : Along (IdleDone script) log

section Record

variable {script : Script n} {s now after : Sim n} {next : Option (Fin n)} {log : List (Line n)}
  (hhead : s.Head script) (hbusy : s.Busy script)

include hhead hbusy

theorem Recorded.opened (hrecorded : Recorded script s log) :
    Opened script s (log ++ s.opening) where
  forked := fun q => by
    rw [List.filter_append, hrecorded.forked, opening_forked hhead.queued.forkNodup]
    rcases Nat.lt_trichotomy (script q).start s.ticks with hlt | heq | hgt
    · have hdue : q ∉ s.due := (hbusy.due_iff q).not.mpr hlt.ne
      simp [hlt, hlt.le, hdue]
    · have hdue : q ∈ s.due := (hbusy.due_iff q).mpr heq
      simp [heq, hdue]
    · have hdue : q ∉ s.due := (hbusy.due_iff q).not.mpr hgt.ne'
      simp [not_lt.mpr hgt.le, not_le.mpr hgt, hdue]
  ran := fun q => by
    rw [List.countP_append, hrecorded.ran, opening_ran]
    rfl
  exited := fun q => by
    rw [List.countP_append, hrecorded.exited, opening_exited]
    by_cases hretiring : q ∈ s.retiring
    · simp [hretiring, hhead.retiring_status hretiring]
    · simp [hretiring]
  idle := fun tick => by
    rw [← hrecorded.idle, List.mem_append, or_iff_left]
    exact fun hline => opening_ne_idle hline rfl
  done := hrecorded.done.append fun line hline _ hidle => absurd hidle (opening_ne_idle hline)

variable (hturn : Turn policy (__forkOnSchedule s) next after)

include hturn

/-- Everything that has been forked is done when the round is idle. -/
theorem Opened.idle_done (hopened : Opened script s log) (hnext : next = none) :
    IdleDone script log (s.ticks, .idle) := by
  intro _ p tick hforked
  have hstart : (script p).start ≤ s.ticks := by
    by_contra hlate
    have hnone := hopened.forked p
    rw [if_neg hlate] at hnone
    have hmem : (tick, Event.forked p) ∈ log.filter (fun line => line.2 = .forked p) := by
      simpa using hforked
    simp [hnone] at hmem
  have hout : p ∉ (__forkOnSchedule s).forkqueue := by
    rw [hbusy.forked_iff]
    omega
  have hdone := hhead.idle_done (hturn.none_iff.mp hnext) hout
  refine ⟨?_, ?_⟩
  · rw [hopened.ran]
    rcases hdone with hexit | hretiring
    · exact hbusy.exited p hexit
    · exact (mem_retiring.mp hretiring).2.trans (hhead.lifespan p)
  · rw [hopened.exited, if_pos hdone]

/-- The line that closes a round. -/
theorem Opened.advance (hopened : Opened script s log) (hadvanced : s.Advanced now next)
    (hrecorded : ∀ tick < s.ticks, ¬ script.Over tick)
    (hlate : next = none → ∃ q, s.ticks < (script q).start) :
    Recorded script now (log ++ [(s.ticks, next.elim .idle .ran)]) where
  forked := fun q => by
    rw [List.filter_append, hopened.forked, hadvanced.ticks]
    have hline : [(s.ticks, next.elim Event.idle Event.ran)].filter
        (fun line => line.2 = .forked q) = [] := by
      cases next <;> simp
    rw [hline, List.append_nil]
    simp only [Nat.lt_succ_iff]
  ran := fun q => by
    rw [List.countP_append, hopened.ran, hadvanced.age]
    cases next <;> simp [List.countP_singleton]
  exited := fun q => by
    rw [List.countP_append, hopened.exited]
    simp only [hadvanced.exit]
    cases next <;> simp
  idle := fun tick => by
    have hidle := hbusy.idle_iff hhead hturn
    rw [List.mem_append, hopened.idle, hadvanced.ticks, List.mem_singleton]
    cases next with
    | none =>
        have hzero := hidle.mp rfl
        simp only [Option.elim_none, Prod.mk.injEq, and_true]
        constructor
        · rintro (⟨hlt, hbacklog⟩ | rfl)
          · exact ⟨by omega, hbacklog⟩
          · exact ⟨by omega, hzero⟩
        · rintro ⟨hlt, hbacklog⟩
          rcases Nat.lt_succ_iff_lt_or_eq.mp hlt with hlt | heq
          · exact .inl ⟨hlt, hbacklog⟩
          · exact .inr heq
    | some p =>
        have hbusy' : script.backlog s.ticks ≠ 0 := fun hzero => by simpa using hidle.mpr hzero
        simp only [Option.elim_some, Prod.mk.injEq, reduceCtorEq, and_false, or_false]
        constructor
        · rintro ⟨hlt, hbacklog⟩
          exact ⟨by omega, hbacklog⟩
        · rintro ⟨hlt, hbacklog⟩
          rcases Nat.lt_succ_iff_lt_or_eq.mp hlt with hlt | rfl
          · exact ⟨hlt, hbacklog⟩
          · exact absurd hbacklog hbusy'
  earlier := fun tick htick hover => by
    rw [hadvanced.ticks] at htick
    rcases Nat.lt_succ_iff_lt_or_eq.mp htick with hlt | rfl
    · exact hrecorded tick hlt hover
    · obtain ⟨q, hq⟩ := hlate ((hbusy.idle_iff hhead hturn).mpr hover.1)
      exact absurd (hover.2 q) (not_le.mpr hq)
  done := by
    apply hopened.done.snoc
    cases next with
    | none => exact hopened.idle_done hhead hbusy hturn rfl
    | some p =>
        intro hidle
        cases hidle

end Record

/-! ## Whole runs -/

/-- Every process is forked at its start, runs for its lifespan and exits; and a tick is idle
only if all that have been forked have exited. -/
structure Complete (script : Script n) (log : List (Line n)) : Prop where
  forked : ∀ p, log.filter (fun line => line.2 = .forked p) = [((script p).start, .forked p)]
  ran : ∀ p, log.countP (fun line => line.2 = .ran p) = (script p).lifespan
  exited : ∀ p, log.countP (fun line => line.2 = .exited p) = 1
  done : Along (IdleDone script) log

theorem Along.of_timeline {script : Script n} {log : List (Line n)}
    (halong : Along (IdleDone script) (timeline log)) : Along (IdleDone script) log := by
  rintro before line after rfl hidle p tick hforked
  have hline : line.2.scheduling := by rw [hidle]; rfl
  have hsplit : timeline (before ++ line :: after) =
      timeline before ++ line :: timeline after := by
    rw [timeline_append]
    simp [timeline, hline]
  have hdone := halong _ _ _ hsplit hidle p tick ((mem_timeline rfl).mpr hforked)
  rwa [timeline_countP (fun _ => by simp +contextual [Event.scheduling]),
    timeline_countP (fun _ => by simp +contextual [Event.scheduling])] at hdone

theorem start_busy (script : Script n) : script.load.Busy script where
  start := fun _ => rfl
  forks := by simp [Script.load]
  unborn := fun _ _ => rfl
  exited := fun q hexit => by cases hexit
  work := by simp [Sim.work, Script.load, Script.pending]

theorem start_recorded (script : Script n) : Recorded script script.load [] where
  forked := fun q => by simp [Script.load]
  ran := fun q => rfl
  exited := fun q => rfl
  idle := fun tick => by simp [Script.load]
  earlier := fun tick htick => absurd htick (Nat.not_lt_zero tick)
  done := .nil _

section Lawful

variable {sched : Scheduler n} (hlaw : Lawful sched policy) {script : Script n}
  (hplain : script.Plain) (hlives : ∀ p, 1 ≤ (script p).lifespan)

include hlaw hplain hlives

/-- The head of the last round of a run that has finished. -/
theorem finished_opened {s : Sim n} {log : List (Line n)}
    (hreach : (sched.logged script).Reachable (⟨.finished, s⟩, log)) :
    ∃ head : Sim n, head.Head script ∧ head.Busy script ∧
      (∀ tick < head.ticks, ¬ script.Over tick) ∧ Opened script head (timeline log) ∧
      Turn policy (__forkOnSchedule head) none s ∧ s.forkqueue = [] := by
  have hregular := hplain.regular hlives
  have hsmooth : ∀ c, (sched.machine script).Reachable c → c.Smooth := fun _ =>
    plain_smooth hlaw hplain hlives
  have hheads : ∀ {head : Sim n} {before : List (Line n)},
      (sched.logged script).Reachable (⟨.iterate, head⟩, before) → head.Head script :=
    fun hhead => reachable_head hlaw hregular hsmooth (reachable_of_logged hhead)
  obtain ⟨head, before, hhead, ⟨hbusy, hrecorded⟩, hlines, hround, hforks⟩ :=
    round_invariant hlaw hsmooth (fun s log => s.Busy script ∧ Recorded script s log)
      ⟨start_busy script, start_recorded script⟩ (by
        rintro s before after hhead ⟨hbusy, hrecorded⟩ ⟨hturn, -⟩ hforks
        have hhead := hheads hhead
        have hadvanced := hturn.advanced_idle hhead
        refine ⟨hbusy.advance hhead hturn hadvanced, ?_⟩
        apply (hrecorded.opened hhead hbusy).advance hhead hbusy hturn hadvanced hrecorded.earlier
        intro _
        obtain ⟨q, hq⟩ := List.exists_mem_of_ne_nil _ hforks
        rw [hturn.forkqueue] at hq
        exact ⟨q, (hbusy.forked_iff q).mp hq⟩) (by
        rintro s before after p now hhead ⟨hbusy, hrecorded⟩ ⟨hturn, -⟩ hsame
        have hhead := hheads hhead
        have hadvanced := hturn.advanced_run hhead hsame
        refine ⟨hbusy.advance hhead hturn hadvanced, ?_⟩
        apply (hrecorded.opened hhead hbusy).advance hhead hbusy hturn hadvanced hrecorded.earlier
        intro hnone
        cases hnone) hreach
  rw [hlines]
  exact ⟨head, hheads hhead, hbusy, hrecorded.earlier, hrecorded.opened (hheads hhead) hbusy,
    hround.turn, hforks⟩

/-- The run of a lawful scheduler on a plain script. -/
theorem lawful_conserves : ∃ s log, (sched.logged script).Reachable (⟨.finished, s⟩, log) ∧
    (script.Over s.ticks ∧ ∀ tick < s.ticks, ¬ script.Over tick) ∧
    (∀ tick, (tick, .idle) ∈ log ↔ tick < s.ticks ∧ script.backlog tick = 0) ∧
    Complete script log := by
  obtain ⟨s, log, hreach⟩ := smooth_finishes hlaw fun _ => plain_smooth hlaw hplain hlives
  obtain ⟨head, hhead, hbusy, hearlier, hopened, hturn, hforks⟩ :=
    finished_opened hlaw hplain hlives hreach
  have hticks : s.ticks = head.ticks := hturn.ticks
  have hout : ∀ q, q ∉ (__forkOnSchedule head).forkqueue := by
    rw [← hturn.forkqueue, hforks]
    simp
  have hstarts : ∀ q, (script q).start ≤ head.ticks := fun q =>
    not_lt.mp ((hbusy.forked_iff q).not.mp (hout q))
  have hdone := fun q => hhead.idle_done (hturn.none_iff.mp rfl) (hout q)
  refine ⟨s, log, hreach, ?_, fun tick => ?_, ?_⟩
  · rw [hticks]
    exact ⟨⟨(hbusy.idle_iff hhead hturn).mp rfl, hstarts⟩, hearlier⟩
  · rw [hticks, ← hopened.idle, mem_timeline rfl]
  constructor
  case forked =>
    intro q
    have hforked := hopened.forked q
    rwa [if_pos (hstarts q), timeline_filter (by simp +contextual [Event.scheduling])] at hforked
  case ran =>
    intro q
    have hran := hopened.ran q
    rw [timeline_countP (by simp +contextual [Event.scheduling])] at hran
    rw [hran]
    rcases hdone q with hexit | hretiring
    · exact hbusy.exited q hexit
    · exact (mem_retiring.mp hretiring).2.trans (hhead.lifespan q)
  case exited =>
    intro q
    have hexited := hopened.exited q
    rwa [if_pos (hdone q), timeline_countP (by simp +contextual [Event.scheduling])] at hexited
  case done => exact Along.of_timeline hopened.done

end Lawful

/-- The schedulers that are compared. -/
def conservingSchedulers (n : Nat) : List (Scheduler n) :=
  [fifoScheduler, srtfScheduler, prioScheduler]

/-- On plain scripts they print what a lawful scheduler prints. -/
theorem conserving_lawful {sched : Scheduler n} (hsched : sched ∈ conservingSchedulers n)
    {script : Script n} (hplain : script.Plain) : ∃ (lawful : Scheduler n) (policy : Policy n),
      Lawful lawful policy ∧ ∀ c log, (lawful.logged script).Reachable (c, log) →
        (sched.logged script).Reachable (c, log) := by
  simp only [conservingSchedulers, List.mem_cons, List.not_mem_nil, or_false] at hsched
  rcases hsched with rfl | rfl | rfl
  · exact ⟨_, _, fifoScheduler_lawful, fun _ _ hreach => hreach⟩
  · have hblind : Blind (srtfScheduler : Scheduler n) := srtfScheduler_blind
    refine ⟨_, _, hblind.completed_lawful, fun c log hreach => ?_⟩
    apply (hblind.plain_logged hplain fun c hstate _ => ?_).mpr hreach
    have hqueued := (reachable_wellFormed hblind.completed_lawful hstate).queued
    exact srtfSchedule_ok fun q hq => ((forkOnSchedule_queued hqueued).ready q hq).2
  · exact ⟨_, _, prioScheduler_lawful, fun _ _ hreach => hreach⟩

/-- **Work conservation.** On a script without requests the three simulations end at the same
tick and idle at the same ticks; in each of them every process is forked at its start, runs
for its lifespan and exits, and no tick is idle before the forked processes are done. -/
theorem work_conserved {script : Script n} (hplain : script.Plain)
    (hlives : ∀ p, 1 ≤ (script p).lifespan) :
    ∃ (last : Nat) (idle : Nat → Prop), ∀ sched ∈ conservingSchedulers n, ∃ s log,
      (sched.logged script).Reachable (⟨.finished, s⟩, log) ∧ s.ticks = last ∧
      (∀ tick, (tick, .idle) ∈ log ↔ idle tick) ∧ Complete script log := by
  obtain ⟨first, -, -, ⟨hover, hearlier⟩, -⟩ :=
    lawful_conserves fifoScheduler_lawful hplain hlives
  refine ⟨first.ticks, fun tick => tick < first.ticks ∧ script.backlog tick = 0, ?_⟩
  intro sched hsched
  obtain ⟨lawful, policy, hlaw, hsame⟩ := conserving_lawful hsched hplain
  obtain ⟨s, log, hreach, ⟨hover', hearlier'⟩, hidle, hcomplete⟩ :=
    lawful_conserves hlaw hplain hlives
  -- both end at the first tick at which everything is over
  have hticks : s.ticks = first.ticks := by
    rcases Nat.lt_trichotomy s.ticks first.ticks with hlt | heq | hgt
    · exact absurd hover' (hearlier _ hlt)
    · exact heq
    · exact absurd hover (hearlier' _ hgt)
  rw [hticks] at hidle
  exact ⟨s, log, hsame _ _ hreach, hticks, hidle, hcomplete⟩

/-- The three simulations of two processes end. -/
theorem work_conserved_arriving : ∃ (last : Nat) (idle : Nat → Prop),
    ∀ sched ∈ conservingSchedulers 2, ∃ s log,
      (sched.logged (arriving 4)).Reachable (⟨.finished, s⟩, log) ∧ s.ticks = last ∧
      (∀ tick, (tick, .idle) ∈ log ↔ idle tick) ∧ Complete (arriving 4) log :=
  work_conserved (arriving_plain 4) (by decide)

end OperatingSystem.Sched
