import OperatingSystem.SchedRoundRobin
import OperatingSystem.Rotation

/-!
# Round robin is fair

The contenders of a tick are a queue: `rr_schedule` serves the first of them, and in the next
tick the processes that start join the others at the end, the one that was served last of all.
So between two ticks of a process each of the others that contend runs for one tick.
-/

namespace OperatingSystem.Sched

variable {n : Nat} {policy : Policy n}

/-! ## The sequence of the contenders -/

section Contenders

variable {s : Sim n}

/-- A contender that is not on the ready queue is the last one. -/
theorem contenders_last {p : Fin n} (hp : p ∉ s.readyqueue) (hmem : p ∈ s.contenders) :
    s.contenders.getLast? = some p := by
  rw [Sim.contenders, List.mem_append, Option.mem_toList] at hmem
  have hunfinished := hmem.resolve_left hp
  rw [Sim.contenders, hunfinished]
  simp

variable {script : Script n} (hhead : s.Head script) (hbusy : s.Busy script)
  (hdone : (__forkOnSchedule s).BlockedDone)

include hhead hdone

theorem Sim.Head.contenders_nodup : (__forkOnSchedule s).contenders.Nodup := by
  rw [contenders_eq hdone]
  exact candidates_nodup (forkOnSchedule_queued hhead.queued)
    (forkOnSchedule_shaped hhead.queued hhead.shaped)

include hbusy

/-- The contenders are the unfinished processes that have started. -/
theorem Sim.Busy.mem_contenders (q : Fin n) : q ∈ (__forkOnSchedule s).contenders ↔
    (script q).start ≤ s.ticks ∧ (s.procs q).age < (script q).lifespan := by
  rw [contenders_eq hdone, ← not_lt, ← hbusy.forked_iff, ← hhead.lifespan]
  constructor
  · exact fun hq => ⟨hhead.candidate_forked hq, hhead.candidate_young hq⟩
  · rintro ⟨hforked, hage⟩
    rcases hhead.place q with hexit | hfork | hcandidate | hretiring
    · exact absurd ((hbusy.exited q hexit).trans (hhead.lifespan q).symm) hage.ne
    · exact absurd hfork hforked
    · exact hcandidate
    · exact absurd (mem_retiring.mp hretiring).2 hage.ne

end Contenders

/-! ## The record of a run -/

/-- The ticks before `tick` in which a process has run. -/
def ranBefore (log : List (Line n)) (p : Fin n) (tick : Nat) : Nat :=
  log.countP fun line => line.2 = .ran p ∧ line.1 < tick

/-- The sequences of the contenders of the ticks before `last`, and what a log shows of them. -/
structure LinedUp (script : Script n) (lineup : Nat → List (Fin n)) (last : Nat)
    (log : List (Line n)) : Prop where
  ran : ∀ tick q, (tick, .ran q) ∈ log ↔ tick < last ∧ (lineup tick).head? = some q
  idle : ∀ tick, (tick, .idle) ∈ log ↔ tick < last ∧ lineup tick = []
  nodup : ∀ tick < last, (lineup tick).Nodup
  mem : ∀ tick < last, ∀ q, q ∈ lineup tick ↔
    (script q).start ≤ tick ∧ ranBefore log q tick < (script q).lifespan
  rotates : Rotates lineup 0 last
  requeued : ∀ tick, tick + 1 < last → ∀ p, (lineup tick).head? = some p →
    p ∈ lineup (tick + 1) → (lineup (tick + 1)).getLast? = some p

theorem linedUp_start (script : Script n) : LinedUp script (fun _ => []) 0 [] where
  ran := by simp
  idle := by simp
  nodup := fun _ htick => absurd htick (Nat.not_lt_zero _)
  mem := fun _ htick => absurd htick (Nat.not_lt_zero _)
  rotates := fun _ _ htick => absurd htick (Nat.not_lt_zero _)
  requeued := fun _ htick => absurd htick (Nat.not_lt_zero _)

/-- A line that tells which process the tick has served. -/
def serves (next : Option (Fin n)) : Event n := next.elim .idle .ran

namespace LinedUp

variable {script : Script n} {lineup : Nat → List (Fin n)} {last : Nat}
  {log lines : List (Line n)} (hlined : LinedUp script lineup last log)

include hlined

/-- Lines of another kind do not matter. -/
theorem append (hlines : ∀ line ∈ lines, ∀ next, line.2 ≠ serves next) :
    LinedUp script lineup last (log ++ lines) where
  ran := fun tick q => by
    rw [List.mem_append, hlined.ran, or_iff_left]
    exact fun hline => hlines _ hline (some q) rfl
  idle := fun tick => by
    rw [List.mem_append, hlined.idle, or_iff_left]
    exact fun hline => hlines _ hline none rfl
  nodup := hlined.nodup
  mem := fun tick htick q => by
    have hnone : ranBefore lines q tick = 0 := by
      refine List.countP_eq_zero.mpr fun line hline => ?_
      have hran := hlines line hline (some q)
      simp only [serves, Option.elim_some] at hran
      simp [hran]
    rw [hlined.mem tick htick, ranBefore, ranBefore, List.countP_append]
    change ranBefore lines q tick = 0 at hnone
    rw [show List.countP _ lines = 0 from hnone, Nat.add_zero]
  rotates := hlined.rotates
  requeued := hlined.requeued

/-- All that the log shows of a process has been before the last tick. -/
theorem ranBefore_last (q : Fin n) :
    ranBefore log q last = log.countP fun line => line.2 = .ran q := by
  refine List.countP_congr fun line hline => ?_
  obtain ⟨tick, event⟩ := line
  by_cases hevent : event = .ran q
  · subst hevent
    simp [((hlined.ran tick q).mp hline).1]
  · simp [hevent]

/-- The contenders of one more tick. -/
theorem snoc {line : List (Fin n)} (hnodup : line.Nodup)
    (hmem : ∀ q, q ∈ line ↔ (script q).start ≤ last ∧
      log.countP (fun line => line.2 = .ran q) < (script q).lifespan)
    (hbefore : ∀ tick, tick + 1 = last → (lineup tick).tail <+: line ∧
      ∀ p, (lineup tick).head? = some p → p ∈ line → line.getLast? = some p) :
    LinedUp script (Function.update lineup last line) (last + 1)
      (log ++ [(last, serves line.head?)]) := by
  have hpast : ∀ {tick}, tick < last → Function.update lineup last line tick = lineup tick :=
    fun htick => Function.update_of_ne htick.ne _ _
  have hnew : Function.update lineup last line last = line := Function.update_self _ _ _
  have hcases : ∀ {tick}, tick < last + 1 → tick < last ∨ tick = last := fun htick =>
    Nat.lt_succ_iff_lt_or_eq.mp htick
  constructor
  case ran =>
    intro tick q
    rw [List.mem_append, hlined.ran, List.mem_singleton]
    constructor
    · rintro (⟨htick, hhead⟩ | hline)
      · exact ⟨by omega, by rw [hpast htick, hhead]⟩
      · obtain ⟨rfl, hserves⟩ := Prod.mk.inj hline
        refine ⟨Nat.lt_succ_self _, ?_⟩
        rw [hnew]
        cases hhead : line.head? with
        | none => simp [serves, hhead] at hserves
        | some p => simpa [serves, hhead, eq_comm] using hserves
    · rintro ⟨htick, hhead⟩
      rcases hcases htick with hlt | rfl
      · exact .inl ⟨hlt, by rw [← hhead, hpast hlt]⟩
      · rw [hnew] at hhead
        exact .inr (by rw [hhead]; rfl)
  case idle =>
    intro tick
    rw [List.mem_append, hlined.idle, List.mem_singleton]
    constructor
    · rintro (⟨htick, hempty⟩ | hline)
      · exact ⟨by omega, by rw [hpast htick, hempty]⟩
      · obtain ⟨rfl, hserves⟩ := Prod.mk.inj hline
        refine ⟨Nat.lt_succ_self _, ?_⟩
        rw [hnew]
        cases line with
        | nil => rfl
        | cons p rest => simp [serves] at hserves
    · rintro ⟨htick, hempty⟩
      rcases hcases htick with hlt | rfl
      · exact .inl ⟨hlt, by rw [← hempty, hpast hlt]⟩
      · rw [hnew] at hempty
        exact .inr (by rw [hempty]; rfl)
  case nodup =>
    intro tick htick
    rcases hcases htick with hlt | rfl
    · rw [hpast hlt]
      exact hlined.nodup tick hlt
    · rwa [hnew]
  case mem =>
    intro tick htick q
    have hcount : ranBefore (log ++ [(last, serves line.head?)]) q tick = ranBefore log q tick := by
      have hlate : ¬ last < tick := by omega
      simp [ranBefore, List.countP_append, hlate]
    rw [hcount]
    rcases hcases htick with hlt | rfl
    · rw [hpast hlt]
      exact hlined.mem tick hlt q
    · rw [hnew, hlined.ranBefore_last]
      exact hmem q
  case rotates =>
    intro tick hfirst htick
    rw [hpast (by omega)]
    rcases hcases htick with hlt | heq
    · rw [hpast hlt]
      exact hlined.rotates tick hfirst hlt
    · rw [heq, hnew]
      exact (hbefore tick heq).1
  case requeued =>
    intro tick htick p
    rw [hpast (by omega)]
    rcases hcases htick with hlt | heq
    · rw [hpast hlt]
      exact hlined.requeued tick hlt p
    · rw [heq, hnew]
      exact (hbefore tick heq).2 p

end LinedUp

/-! ## Rounds of round robin -/

/-- The ready queue is what the last tick has left of its contenders. -/
structure Sim.Leaves (lineup : Nat → List (Fin n)) (s : Sim n) : Prop where
  current : ∀ tick, tick + 1 = s.ticks → s.current = (lineup tick).head?
  readyqueue : ∀ tick, tick + 1 = s.ticks → s.readyqueue = (lineup tick).tail

section Round

variable {script : Script n} {s now after : Sim n} {next : Option (Fin n)}

theorem Round.next_eq (hdone : (__forkOnSchedule s).BlockedDone)
    (hround : Round rrScheduler.completed policy s next after) :
    next = (__forkOnSchedule s).contenders.head? ∧
      after.readyqueue = (__forkOnSchedule s).contenders.tail := by
  have hschedule := hround.schedule
  rw [rr_completed_eq hdone] at hschedule
  obtain ⟨hnext, hafter⟩ := Prod.mk.inj (Except.ok.inj hschedule)
  exact ⟨hnext.symm, (congrArg Sim.readyqueue hafter).symm⟩

theorem Round.leaves (hdone : (__forkOnSchedule s).BlockedDone)
    (hround : Round rrScheduler.completed policy s next after) (lineup : Nat → List (Fin n))
    (hadvanced : s.Advanced now next) (hready : now.readyqueue = after.readyqueue) :
    now.Leaves (Function.update lineup s.ticks (__forkOnSchedule s).contenders) := by
  obtain ⟨hnext, hqueue⟩ := hround.next_eq hdone
  constructor
  · intro tick htick
    obtain rfl : tick = s.ticks := by rw [hadvanced.ticks] at htick; omega
    rw [Function.update_self, hadvanced.current, hnext]
  · intro tick htick
    obtain rfl : tick = s.ticks := by rw [hadvanced.ticks] at htick; omega
    rw [Function.update_self, hready, hqueue]

/-- The current process is not on the ready queue. -/
theorem Sim.Head.current_out (hhead : s.Head script) {p : Fin n} (hcurrent : s.current = some p) :
    p ∉ (__forkOnSchedule s).readyqueue := by
  intro hready
  have hrun := hhead.current_running hcurrent
  rw [← forkOnSchedule_procs hhead.queued] at hrun
  have hstatus := ((forkOnSchedule_queued hhead.queued).ready p hready).1
  rw [hrun] at hstatus
  cases hstatus

theorem LinedUp.advance (hhead : s.Head script) (hbusy : s.Busy script)
    (hdone : (__forkOnSchedule s).BlockedDone) {lineup : Nat → List (Fin n)}
    (hleaves : s.Leaves lineup) {log : List (Line n)}
    (hlined : LinedUp script lineup s.ticks log)
    (hran : ∀ q, log.countP (fun line => line.2 = .ran q) = (s.procs q).age) :
    LinedUp script (Function.update lineup s.ticks (__forkOnSchedule s).contenders) (s.ticks + 1)
      (log ++ [(s.ticks, serves (__forkOnSchedule s).contenders.head?)]) := by
  apply hlined.snoc (hhead.contenders_nodup hdone)
  · intro q
    rw [hbusy.mem_contenders hhead hdone, hran]
  · intro tick htick
    constructor
    · rw [← hleaves.readyqueue tick htick]
      show s.readyqueue <+: s.readyqueue ++ s.due ++ _
      rw [List.append_assoc]
      exact List.prefix_append _ _
    · intro p hp
      rw [← hleaves.current tick htick] at hp
      exact contenders_last (hhead.current_out hp)

end Round

/-! ## Whole runs -/

/-- What the state and the timeline have of the contenders at a head. -/
structure Contended (script : Script n) (s : Sim n) (log : List (Line n)) : Prop where
  busy : s.Busy script
  recorded : Recorded script s log
  lined : ∃ lineup, LinedUp script lineup s.ticks log ∧ s.Leaves lineup

/-- The log shows the forks of the ticks before `last`. -/
def ShowsForks (script : Script n) (last : Nat) (log : List (Line n)) : Prop :=
  ∀ q, log.filter (fun line => line.2 = .forked q) =
    if (script q).start < last then [((script q).start, .forked q)] else []

theorem ShowsForks.forked_iff {script : Script n} {last : Nat} {log : List (Line n)}
    (hforks : ShowsForks script last log) {q : Fin n} {tick : Nat} :
    (tick, .forked q) ∈ log ↔ tick < last ∧ tick = (script q).start := by
  have hmem : (tick, .forked q) ∈ log ↔
      (tick, .forked q) ∈ log.filter fun line => line.2 = .forked q := by simp
  rw [hmem, hforks q]
  split <;> simp <;> omega

theorem start_contended (script : Script n) : Contended script script.load [] where
  busy := start_busy script
  recorded := start_recorded script
  lined := by
    refine ⟨_, linedUp_start script, ?_, ?_⟩
    · exact fun tick htick => absurd htick (Nat.succ_ne_zero tick)
    · exact fun tick htick => absurd htick (Nat.succ_ne_zero tick)

namespace Contended

variable {script : Script n} {s now after : Sim n} {next : Option (Fin n)} {log : List (Line n)}
  (hcontended : Contended script s log)

include hcontended

/-- The lines that open a round tell of no process that is served. -/
theorem linedUp_opened : ∃ lineup, LinedUp script lineup s.ticks (log ++ s.opening) ∧
    s.Leaves lineup := by
  obtain ⟨lineup, hlined, hleaves⟩ := hcontended.lined
  refine ⟨lineup, hlined.append fun line hline next => ?_, hleaves⟩
  rcases mem_opening hline with ⟨q, rfl⟩ | ⟨q, rfl⟩ <;> cases next <;> simp [serves]

theorem linedUp : ∃ lineup last count, LinedUp script lineup last log ∧ last ≤ count ∧
    ShowsForks script count log := by
  obtain ⟨lineup, hlined, -⟩ := hcontended.lined
  exact ⟨lineup, _, _, hlined, le_rfl, hcontended.recorded.forked⟩

variable (hhead : s.Head script)

include hhead

theorem opened_linedUp : ∃ lineup last count, LinedUp script lineup last (log ++ s.opening) ∧
    last ≤ count ∧ ShowsForks script count (log ++ s.opening) := by
  obtain ⟨lineup, hlined, -⟩ := hcontended.linedUp_opened
  refine ⟨lineup, _, s.ticks + 1, hlined, Nat.le_succ _, fun q => ?_⟩
  rw [(hcontended.recorded.opened hhead hcontended.busy).forked]
  simp only [Nat.lt_succ_iff]

theorem advance (hdone : (__forkOnSchedule s).BlockedDone)
    (hround : Round rrScheduler.completed policy s next after) (hadvanced : s.Advanced now next)
    (hready : now.readyqueue = after.readyqueue)
    (hlate : next = none → ∃ q, s.ticks < (script q).start) :
    Contended script now (log ++ s.opening ++ [(s.ticks, serves next)]) := by
  obtain ⟨lineup, hlined, hleaves⟩ := hcontended.linedUp_opened
  obtain ⟨hbusy, hrecorded, -⟩ := hcontended
  have hopened := hrecorded.opened hhead hbusy
  constructor
  case busy => exact hbusy.advance hhead hround.turn hadvanced
  case recorded => exact hopened.advance hhead hbusy hround.turn hadvanced hrecorded.earlier hlate
  case lined =>
    refine ⟨_, ?_, hround.leaves hdone lineup hadvanced hready⟩
    rw [hadvanced.ticks, (hround.next_eq hdone).1]
    exact hlined.advance hhead hbusy hdone hleaves hopened.ran

end Contended

/-- A log of round robin is one of the completed scheduler; nothing is printed in the step that
crashes. -/
theorem rr_logged {script : Script n} (hplain : script.Plain) {c : Config n} {log : List (Line n)}
    (hreach : (rrScheduler.logged script).Reachable (c, log)) :
    ∃ c, (rrScheduler.completed.logged script).Reachable (c, log) := by
  have hblind : Blind (rrScheduler : Scheduler n) := rrScheduler_blind
  suffices hsame : (rrScheduler.completed.logged script).Reachable (c, log) ∨
      ((∃ fault, c.pc = .failed fault) ∧
        ∃ c, (rrScheduler.completed.logged script).Reachable (c, log)) from
    hsame.elim (fun hreach => ⟨c, hreach⟩) And.right
  apply hreach.logged_invariant fun c log =>
    (rrScheduler.completed.logged script).Reachable (c, log) ∨ ((∃ fault, c.pc = .failed fault) ∧
      ∃ c, (rrScheduler.completed.logged script).Reachable (c, log))
  · exact .inl (show (rrScheduler.completed.logged script).Reachable _ from Machine.reachable_init)
  rintro ⟨pc, s⟩ log - (hstate | ⟨⟨fault, rfl⟩, hstate⟩)
  · by_cases hok : pc = .iterate → rrSchedule (__forkOnSchedule s) ≠ .error .nullPointer
    · left
      obtain ⟨hnext, hlines⟩ := hblind.plain_step hplain (reachable_of_logged hstate) hok
      rw [hnext, hlines]
      exact hstate.logged_step
    · right
      rw [Classical.not_imp, not_not] at hok
      obtain ⟨rfl, hcrash⟩ := hok
      -- nothing is due, for a process that has been forked would be ready
      have hdue : s.due = [] := (List.append_eq_nil_iff.mp (rrSchedule_crash_iff.mp hcrash).2).2
      have hschedule : rrScheduler.schedule (__forkOnSchedule s) = _ := hcrash
      have hlines : rrScheduler.lines ⟨.iterate, s⟩ = [] := by
        simp only [Scheduler.lines, Scheduler.events, iterationEvents, hschedule, hdue]
        rfl
      refine ⟨⟨.nullPointer, ?_⟩, ?_⟩
      · simp only [Scheduler.next, iteration, hschedule]
        rfl
      · rw [hlines, List.append_nil]
        exact ⟨_, hstate⟩
  · right
    exact ⟨⟨fault, rfl⟩, by simpa [Scheduler.lines, Scheduler.events] using hstate⟩

section Runs

variable {script : Script n} (hplain : script.Plain) (hlives : ∀ p, 1 ≤ (script p).lifespan)

include hplain hlives

/-- What a log of the completed scheduler shows of the contenders. -/
theorem completed_linedUp {c : Config n} {log : List (Line n)}
    (hreach : (rrScheduler.completed.logged script).Reachable (c, log)) :
    ∃ lineup last count, LinedUp script lineup last (timeline log) ∧ last ≤ count ∧
      ShowsForks script count (timeline log) := by
  have hblind : Blind (rrScheduler : Scheduler n) := rrScheduler_blind
  have hlaw := hblind.completed_lawful
  have hsmooth : ∀ c, (rrScheduler.completed.machine script).Reachable c → c.Smooth := fun _ =>
    plain_smooth hlaw hplain hlives
  have hheads : ∀ {head : Sim n} {before : List (Line n)},
      (rrScheduler.completed.logged script).Reachable (⟨.iterate, head⟩, before) →
      head.Head script ∧ (__forkOnSchedule head).BlockedDone := by
    intro head before hhead
    have hstate := reachable_of_logged hhead
    have hwf := reachable_wellFormed hlaw hstate
    have hdone := (reachable_plain hplain hlaw hstate).blockedDone hwf
    exact ⟨reachable_head hlaw (hplain.regular hlives) hsmooth hstate,
      forkOnSchedule_blockedDone hwf.queued (hdone rfl)⟩
  have hran : ∀ {s now after : Sim n} {p : Fin n} {before : List (Line n)},
      (rrScheduler.completed.logged script).Reachable (⟨.iterate, s⟩, before) →
      Contended script s (timeline before) →
      Round rrScheduler.completed fifoPolicy s (some p) after →
      now.Same (after.grow p).tick →
      Contended script now (timeline before ++ s.opening ++ [(s.ticks, .ran p)]) := by
    intro s now after p before hhead hcontended hround hsame
    obtain ⟨hhead, hdone⟩ := hheads hhead
    exact hcontended.advance hhead hdone hround (hround.turn.advanced_run hhead hsame)
      hsame.readyqueue fun hnone => by cases hnone
  obtain ⟨s, before, hhead, hcontended, hwithin⟩ :=
    round_invariant hlaw hsmooth (Contended script) (start_contended script) (by
        intro s before after hhead hcontended hround hforks
        obtain ⟨hhead, hdone⟩ := hheads hhead
        apply hcontended.advance hhead hdone hround (hround.turn.advanced_idle hhead) rfl
        intro _
        obtain ⟨q, hq⟩ := List.exists_mem_of_ne_nil _ hforks
        rw [hround.turn.forkqueue] at hq
        exact ⟨q, (hcontended.busy.forked_iff q).mp hq⟩)
      (fun s before after p now => hran) hreach
  obtain ⟨pc, now⟩ := c
  cases pc with
  | iterate =>
      rw [hwithin.2]
      exact hcontended.linedUp
  | acquire p skipped todo =>
      rw [hwithin.1]
      exact hcontended.opened_linedUp (hheads hhead).1
  | release p kept todo =>
      obtain ⟨hlines, after, hround, hsame⟩ := hwithin
      rw [hlines]
      exact (hran hhead hcontended hround hsame.tick).linedUp
  | finished =>
      rw [hwithin.1]
      exact hcontended.opened_linedUp (hheads hhead).1
  | failed fault => exact hwithin.elim

end Runs

/-! ## Fairness -/

/-- A process runs in the tick `first`, and next in the tick `second`. -/
structure RunsNext (log : List (Line n)) (p : Fin n) (first second : Nat) : Prop where
  ran : (first, .ran p) ∈ log
  again : (second, .ran p) ∈ log
  lt : first < second
  between : ∀ tick, first < tick → tick < second → (tick, .ran p) ∉ log

/-- A process has been forked up to a tick, and is not finished at its start. -/
def Contends (script : Script n) (log : List (Line n)) (q : Fin n) (tick : Nat) : Prop :=
  (∃ forked ≤ tick, (forked, .forked q) ∈ log) ∧ ranBefore log q tick < (script q).lifespan

theorem contends_timeline {script : Script n} {log : List (Line n)} {q : Fin n} {tick : Nat} :
    Contends script (timeline log) q tick ↔ Contends script log q tick := by
  have hran : ranBefore (timeline log) q tick = ranBefore log q tick := by
    apply timeline_countP
    simp +contextual [Event.scheduling]
  have hforked : ∀ forked, (forked, Event.forked q) ∈ timeline log ↔ (forked, .forked q) ∈ log :=
    fun forked => mem_timeline rfl
  simp only [Contends, hran, hforked]

theorem ranBefore_mono {log : List (Line n)} {q : Fin n} {first second : Nat}
    (hle : first ≤ second) : ranBefore log q first ≤ ranBefore log q second := by
  refine List.countP_mono_left fun line _ hline => ?_
  simp only [decide_eq_true_eq] at hline ⊢
  exact ⟨hline.1, hline.2.trans_le hle⟩

namespace LinedUp

variable {script : Script n} {lineup : Nat → List (Fin n)} {last count : Nat}
  {log : List (Line n)} (hlined : LinedUp script lineup last log)

include hlined

theorem mem_iff (hcount : last ≤ count) (hforks : ShowsForks script count log) {tick : Nat}
    (htick : tick < last) (q : Fin n) : q ∈ lineup tick ↔ Contends script log q tick := by
  rw [hlined.mem tick htick, Contends]
  refine and_congr_left fun _ => ?_
  constructor
  · intro hstart
    exact ⟨_, hstart, hforks.forked_iff.mpr ⟨by omega, rfl⟩⟩
  · rintro ⟨forked, hle, hline⟩
    have hstart := (hforks.forked_iff.mp hline).2
    omega

variable {p : Fin n} {first second : Nat} (hruns : RunsNext log p first second)

include hruns

/-- A process that runs again stays a contender, and comes last. -/
theorem last_of_runsNext : (lineup (first + 1)).getLast? = some p := by
  obtain ⟨hfirst, hsecond, hlt, -⟩ := hruns
  obtain ⟨hlast, hhead⟩ := (hlined.ran second p).mp hsecond
  obtain ⟨-, hagain⟩ := (hlined.mem second hlast p).mp (List.mem_of_head? hhead)
  obtain ⟨hbefore, hserved⟩ := (hlined.ran first p).mp hfirst
  obtain ⟨hstart, -⟩ := (hlined.mem first hbefore p).mp (List.mem_of_head? hserved)
  apply hlined.requeued first (by omega) p hserved
  rw [hlined.mem _ (by omega)]
  exact ⟨by omega, (ranBefore_mono hlt).trans_lt hagain⟩

/-- The round of the queue between two ticks of a process. -/
theorem fair (hcount : last ≤ count) (hforks : ShowsForks script count log) :
    (∀ tick, first < tick → tick < second → (tick, .idle) ∉ log) ∧
    (∀ q, q ≠ p → Contends script log q (first + 1) →
      ∃! tick, first < tick ∧ tick < second ∧ (tick, .ran q) ∈ log) ∧
    ∀ q tick, first < tick → tick < second → (tick, .ran q) ∈ log →
      q ≠ p ∧ Contends script log q (first + 1) := by
  have hlastp := hlined.last_of_runsNext hruns
  obtain ⟨-, hsecond, hlt, hbetween⟩ := hruns
  obtain ⟨hlast, hhead⟩ := (hlined.ran second p).mp hsecond
  have hrotates := hlined.rotates.later (Nat.zero_le (first + 1))
  have hnodup := hlined.nodup (first + 1) (by omega)
  have hran : ∀ {tick}, tick < second → ∀ q, (tick, .ran q) ∈ log ↔
      (lineup tick).head? = some q := by
    intro tick htick q
    rw [hlined.ran]
    exact and_iff_right (htick.trans hlast)
  have hnot : ∀ tick, first + 1 ≤ tick → tick < second → (lineup tick).head? ≠ some p :=
    fun tick hle htick => (hran htick p).not.mp (hbetween tick hle htick)
  have hmem := hlined.mem_iff hcount hforks (show first + 1 < last by omega)
  refine ⟨fun tick hle htick hidle => ?_, fun q hq hcontends => ?_,
    fun q tick hle htick hline => ?_⟩
  · exact hrotates.round_ne_nil hnodup hlastp hlt hlast hhead hnot hle htick
      ((hlined.idle tick).mp hidle).2
  · obtain ⟨tick, ⟨hle, htick, hserved⟩, hunique⟩ :=
      hrotates.round_once hnodup hlastp hlt hlast hhead hnot ((hmem q).mpr hcontends) hq
    refine ⟨tick, ⟨hle, htick, (hran htick q).mpr hserved⟩, ?_⟩
    rintro other ⟨hle, htick, hline⟩
    exact hunique other ⟨hle, htick, (hran htick q).mp hline⟩
  · have hserved := (hran htick q).mp hline
    refine ⟨fun heq => hnot tick hle htick (heq ▸ hserved), (hmem q).mp ?_⟩
    exact hrotates.round_mem hnodup hlastp hlt hlast hhead hnot hle htick hserved

end LinedUp

/-- **Round robin is fair.** Between a tick of a process and its next one no tick is idle, and
exactly the others that contend in the tick after it run, each of them for one tick. -/
theorem rr_fair {script : Script n} (hplain : script.Plain) (hlives : ∀ p, 1 ≤ (script p).lifespan)
    {c : Config n} {log : List (Line n)} (hreach : (rrScheduler.logged script).Reachable (c, log))
    {p : Fin n} {first second : Nat} (hruns : RunsNext log p first second) :
    (∀ tick, first < tick → tick < second → (tick, .idle) ∉ log) ∧
    (∀ q, q ≠ p → Contends script log q (first + 1) →
      ∃! tick, first < tick ∧ tick < second ∧ (tick, .ran q) ∈ log) ∧
    ∀ q tick, first < tick → tick < second → (tick, .ran q) ∈ log →
      q ≠ p ∧ Contends script log q (first + 1) := by
  obtain ⟨c, hcompleted⟩ := rr_logged hplain hreach
  obtain ⟨lineup, last, count, hlined, hcount, hforks⟩ :=
    completed_linedUp hplain hlives hcompleted
  have hran : ∀ {q : Fin n} {tick : Nat}, (tick, .ran q) ∈ timeline log ↔ (tick, .ran q) ∈ log :=
    mem_timeline rfl
  have hidle : ∀ {tick : Nat}, (tick, .idle) ∈ timeline log ↔ (tick, .idle) ∈ log :=
    mem_timeline rfl
  have hshown : RunsNext (timeline log) p first second := by
    obtain ⟨hfirst, hsecond, hlt, hbetween⟩ := hruns
    refine ⟨hran.mpr hfirst, hran.mpr hsecond, hlt, fun tick hle htick => ?_⟩
    rw [hran]
    exact hbetween tick hle htick
  simpa only [hran, hidle, contends_timeline] using hlined.fair hshown hcount hforks

/-- The second process is forked in the tick after one of the first. -/
theorem rr_fair_arriving : ∃ c log, (rrScheduler.logged (arriving 4)).Reachable (c, log) ∧
    RunsNext log 0 1 3 ∧ ∃! tick, 1 < tick ∧ tick < 3 ∧ (tick, .ran 1) ∈ log := by
  have hreach := play_reachable rrScheduler (arriving 4) 12
  have hruns : RunsNext (rrScheduler.play (arriving 4) 12).2 0 1 3 := by
    refine ⟨by decide +kernel, by decide +kernel, by decide, fun tick hle hlt => ?_⟩
    obtain rfl : tick = 2 := by omega
    decide +kernel
  refine ⟨_, _, hreach, hruns, ?_⟩
  exact (rr_fair (arriving_plain 4) (by decide) hreach hruns).2.1 1 (by decide)
    ⟨⟨2, by decide, by decide +kernel⟩, by decide +kernel⟩

end OperatingSystem.Sched
