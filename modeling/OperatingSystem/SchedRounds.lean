import OperatingSystem.SchedTrace
import OperatingSystem.SchedTermination

/-!
# Rounds

Between two heads of the main loop a process is chosen, ages by a tick, and acquires and
releases resources on the way. If nobody blocks, the last part does not matter for the
schedule: an invariant of the queues, the ages and the timeline is proved for whole rounds.
-/

namespace OperatingSystem.Sched

variable {n : Nat} {policy : Policy n}

/-- The two states differ in priorities and resources only. -/
structure Sim.Same (now s : Sim n) : Prop where
  forkqueue : now.forkqueue = s.forkqueue
  readyqueue : now.readyqueue = s.readyqueue
  current : now.current = s.current
  ticks : now.ticks = s.ticks
  procs : ∀ q, now.procs q =
    { s.procs q with
      prio := (now.procs q).prio
      resourcesToAcquire := (now.procs q).resourcesToAcquire
      resourcesHolding := (now.procs q).resourcesHolding }

namespace Sim.Same

variable {now s : Sim n}

theorem refl (s : Sim n) : s.Same s := ⟨rfl, rfl, rfl, rfl, fun _ => rfl⟩

theorem trans {then_ : Sim n} (hnow : now.Same then_) (hthen : then_.Same s) : now.Same s where
  forkqueue := hnow.forkqueue.trans hthen.forkqueue
  readyqueue := hnow.readyqueue.trans hthen.readyqueue
  current := hnow.current.trans hthen.current
  ticks := hnow.ticks.trans hthen.ticks
  procs := fun q => by rw [hnow.procs q, hthen.procs q]

theorem status (hsame : now.Same s) (q : Fin n) : (now.procs q).status = (s.procs q).status := by
  rw [hsame.procs q]

theorem age (hsame : now.Same s) (q : Fin n) : (now.procs q).age = (s.procs q).age := by
  rw [hsame.procs q]

theorem grow (hsame : now.Same s) (p : Fin n) : (now.grow p).Same (s.grow p) where
  forkqueue := hsame.forkqueue
  readyqueue := hsame.readyqueue
  current := hsame.current
  ticks := hsame.ticks
  procs := fun q => by
    by_cases hq : q = p
    · subst hq
      rw [now.grow_self, s.grow_self, hsame.procs q]
    · rw [now.grow_of_ne p hq, s.grow_of_ne p hq]
      exact hsame.procs q

theorem tick (hsame : now.Same s) : now.tick.Same s.tick :=
  ⟨hsame.forkqueue, hsame.readyqueue, hsame.current, congrArg (· + 1) hsame.ticks, hsame.procs⟩

theorem granted (s : Sim n) (p : Fin n) (prios : Fin n → Nat) (rs : ResourceSchedule)
    (pending : List ResourceSchedule) : (s.granted p prios rs pending).Same s :=
  ⟨rfl, rfl, rfl, rfl, fun q => by rw [s.granted_frame]⟩

theorem freed (s : Sim n) (p : Fin n) (prios : Fin n → Nat) (r : Fin NR_RESOURCES)
    (holding : List ResourceSchedule) : (s.freed p prios r holding).Same s :=
  ⟨rfl, rfl, rfl, rfl, fun q => by rw [s.freed_frame]⟩

theorem setHolding (s : Sim n) (p : Fin n) (holding : List ResourceSchedule) :
    (s.setHolding p holding).Same s :=
  ⟨rfl, rfl, rfl, rfl, fun q => by rw [s.setHolding_frame]⟩

end Sim.Same

/-! ## Timelines -/

/-- The event is not about a resource that is acquired or released. -/
def Event.scheduling : Event n → Bool
  | .acquired _ _ | .released _ _ => false
  | _ => true

/-- The lines of a log that show the schedule. -/
def timeline (log : List (Line n)) : List (Line n) := log.filter fun line => line.2.scheduling

@[simp] theorem timeline_append (log lines : List (Line n)) :
    timeline (log ++ lines) = timeline log ++ timeline lines :=
  List.filter_append _ _

theorem mem_timeline {log : List (Line n)} {line : Line n} (hline : line.2.scheduling) :
    line ∈ timeline log ↔ line ∈ log := by
  simp [timeline, hline]

theorem timeline_filter {log : List (Line n)} {p : Line n → Bool}
    (hp : ∀ line, p line → line.2.scheduling) : (timeline log).filter p = log.filter p := by
  rw [timeline, List.filter_filter]
  refine List.filter_congr fun line _ => ?_
  cases hline : p line
  · rfl
  · rw [hp line hline, Bool.and_self]

theorem timeline_countP {log : List (Line n)} {p : Line n → Bool}
    (hp : ∀ line, p line → line.2.scheduling) : (timeline log).countP p = log.countP p := by
  rw [List.countP_eq_length_filter, List.countP_eq_length_filter, timeline_filter hp]

/-- The lines that open a round. -/
def Sim.opening (s : Sim n) : List (Line n) :=
  s.due.map (fun p => (s.ticks, .forked p)) ++ s.retiring.map fun p => (s.ticks, .exited p)

theorem mem_opening {s : Sim n} {line : Line n} (hline : line ∈ s.opening) :
    (∃ p, line = (s.ticks, .forked p)) ∨ ∃ p, line = (s.ticks, .exited p) := by
  rcases List.mem_append.mp hline with hline | hline
  · obtain ⟨p, -, rfl⟩ := List.mem_map.mp hline
    exact .inl ⟨p, rfl⟩
  · obtain ⟨p, -, rfl⟩ := List.mem_map.mp hline
    exact .inr ⟨p, rfl⟩

theorem timeline_opening (s : Sim n) : timeline s.opening = s.opening := by
  refine List.filter_eq_self.mpr fun line hline => ?_
  rcases mem_opening hline with ⟨p, rfl⟩ | ⟨p, rfl⟩ <;> rfl

/-! ## The choice of an iteration -/

/-- An iteration up to the run of the next process, with the choice of the callback. -/
structure Round (sched : Scheduler n) (policy : Policy n) (s : Sim n) (next : Option (Fin n))
    (after : Sim n) : Prop where
  turn : Turn policy (__forkOnSchedule s) next after
  schedule : sched.schedule (__forkOnSchedule s) =
    .ok (next, { __forkOnSchedule s with readyqueue := after.readyqueue })

theorem iteration_schedule {sched : Scheduler n} (hlaw : Lawful sched policy) {s : Sim n}
    (hqueued : s.Queued) {c : Config n} (hnext : sched.next ⟨.iterate, s⟩ = c)
    (hpc : ∀ fault, c.pc ≠ .failed fault) : sched.schedule (__forkOnSchedule s) =
      .ok (c.sim.current, { __forkOnSchedule s with readyqueue := c.sim.readyqueue }) := by
  obtain ⟨next, queue, hschedule, -⟩ := hlaw.schedule (__forkOnSchedule s) fun q hq =>
    ((forkOnSchedule_queued hqueued).ready q hq).2
  simp only [Scheduler.next, iteration, hschedule, ok_bind] at hnext
  cases hupdate : updatePrev { __forkOnSchedule s with readyqueue := queue, current := next }
      (__forkOnSchedule s).current with
  | error fault =>
      simp only [hupdate] at hnext
      exact absurd (congrArg Config.pc hnext).symm (hpc fault)
  | ok after =>
      have hsame := updatePrev_same hupdate
      have hcurrent : after.current = next := by rw [hsame]
      have hready : after.readyqueue = queue := by rw [hsame]
      simp only [hupdate, ok_bind, runCurrent, hcurrent] at hnext
      cases next with
      | none =>
          by_cases hempty : after.readyqueue = [] ∧ after.forkqueue = []
          · simp only [if_pos hempty] at hnext
            rw [hschedule, ← hnext, hcurrent, hready]
          · simp only [if_neg hempty] at hnext
            rw [hschedule, ← hnext, ← hcurrent, ← hready]
            rfl
      | some p =>
          by_cases hlinked : (after.setStatus p .running).linked p
          · simp only [if_pos hlinked] at hnext
            exact absurd (congrArg Config.pc hnext).symm (hpc _)
          · simp only [if_neg hlinked] at hnext
            rw [hschedule, ← hnext, ← hcurrent, ← hready]
            rfl

/-! ## The invariant rule -/

/-- Nobody waits, and no assertion has failed. -/
structure Config.Smooth (c : Config n) : Prop where
  waitqueue : ∀ r, (c.sim.resources r).waitqueue = []
  runs : ∀ fault, c.pc ≠ .failed fault

/-- Where a round that starts in `s` with the timeline `before` can be. -/
def Pc.Within (sched : Scheduler n) (policy : Policy n) (s : Sim n) (before : List (Line n))
    (now : Sim n) (lines : List (Line n)) : Pc n → Prop
  | .iterate => now = s ∧ lines = before
  | .acquire p _ _ => lines = before ++ s.opening ∧
      ∃ after, Round sched policy s (some p) after ∧ now.Same after
  | .release p _ _ => lines = before ++ s.opening ++ [(s.ticks, .ran p)] ∧
      ∃ after, Round sched policy s (some p) after ∧ now.Same (after.grow p)
  | .finished => lines = before ++ s.opening ∧ Round sched policy s none now ∧ now.forkqueue = []
  | .failed _ => False

/-- The lines that an iteration prints, apart from the idle line. -/
theorem printed_opening (s : Sim n) : (s.due.map Event.forked ++ s.retiring.map Event.exited).map
    (fun event => (s.ticks, event)) = s.opening := by
  simp [Sim.opening, Function.comp_def]

theorem printedLines_finish (s after : Sim n) :
    Config.printedLines ⟨.iterate, s⟩ ⟨.finished, after⟩ = s.opening :=
  printed_opening s

theorem printedLines_dispatch (s after : Sim n) (p : Fin n) (todo : List ResourceSchedule) :
    Config.printedLines ⟨.iterate, s⟩ ⟨.acquire p [] todo, after⟩ = s.opening :=
  printed_opening s

theorem printedLines_idle (s after : Sim n) :
    Config.printedLines ⟨.iterate, s⟩ ⟨.iterate, after⟩ = s.opening ++ [(s.ticks, .idle)] := by
  simp [Config.printedLines, Config.printed, Sim.opening, Function.comp_def]

section Rule

variable {sched : Scheduler n} {script : Script n} {c : Config n} {log : List (Line n)}

/-- The invariant rule for rounds: an invariant of the head states and the timeline that
every idle round and every round of a process keeps. -/
theorem round_invariant (hlaw : Lawful sched policy)
    (hsmooth : ∀ c, (sched.machine script).Reachable c → c.Smooth)
    (Inv : Sim n → List (Line n) → Prop) (hinit : Inv script.load [])
    (hidle : ∀ s before after, (sched.logged script).Reachable (⟨.iterate, s⟩, before) →
      Inv s (timeline before) → Round sched policy s none after → after.forkqueue ≠ [] →
      Inv after.tick (timeline before ++ s.opening ++ [(s.ticks, .idle)]))
    (hrun : ∀ s before after p now, (sched.logged script).Reachable (⟨.iterate, s⟩, before) →
      Inv s (timeline before) → Round sched policy s (some p) after →
      now.Same (after.grow p).tick →
      Inv now (timeline before ++ s.opening ++ [(s.ticks, .ran p)]))
    (hreach : (sched.logged script).Reachable (c, log)) :
    ∃ s before, (sched.logged script).Reachable (⟨.iterate, s⟩, before) ∧
      Inv s (timeline before) ∧
      c.pc.Within sched policy s (timeline before) c.sim (timeline log) := by
  apply hreach.logged_invariant fun c log => ∃ s before,
    (sched.logged script).Reachable (⟨.iterate, s⟩, before) ∧ Inv s (timeline before) ∧
    c.pc.Within sched policy s (timeline before) c.sim (timeline log)
  · exact ⟨script.load, [], Machine.reachable_init, hinit, rfl, rfl⟩
  rintro state log hstate ⟨s, before, hhead, hinv, hwithin⟩
  have hwf := reachable_wellFormed hlaw (reachable_of_logged hstate)
  have hwaitqueue := (hsmooth _ (reachable_of_logged hstate)).waitqueue
  have heffect := step_effect hlaw hwf
  have hstep := hstate.logged_step
  rw [lines_eq hlaw hwf] at hstep ⊢
  obtain ⟨hwaitqueue', hruns⟩ := hsmooth _ (reachable_of_logged hstep)
  have hschedule : state.pc = .iterate → sched.schedule (__forkOnSchedule state.sim) =
      .ok ((sched.next state).sim.current, { __forkOnSchedule state.sim with
        readyqueue := (sched.next state).sim.readyqueue }) := by
    intro hpc
    obtain ⟨pc, now⟩ := state
    obtain rfl : pc = .iterate := hpc
    exact iteration_schedule hlaw hwf.queued rfl hruns
  generalize sched.next state = next at heffect hstep hwaitqueue' hruns hschedule ⊢
  cases heffect with
  | @finish now after hturn hforks =>
      obtain ⟨rfl, hlines⟩ := hwithin
      have hround : Round sched policy now none after := by
        refine ⟨hturn, ?_⟩
        rw [hschedule rfl, ← hturn.current]
      refine ⟨now, before, hhead, hinv, ?_, hround, hforks⟩
      rw [timeline_append, hlines, printedLines_finish, timeline_opening]
  | @idle now after hturn hforks =>
      obtain ⟨rfl, hlines⟩ := hwithin
      have hround : Round sched policy now none after := by
        refine ⟨hturn, ?_⟩
        rw [hschedule rfl, ← hturn.current]
        rfl
      have hkept := hidle now before after hhead hinv hround hforks
      refine ⟨_, _, hstep, ?_, rfl, rfl⟩
      rw [timeline_append, hlines, printedLines_idle, timeline_append, timeline_opening,
        ← List.append_assoc]
      exact hkept
  | @dispatch now after p hturn =>
      obtain ⟨rfl, hlines⟩ := hwithin
      have hround : Round sched policy now (some p) after := by
        refine ⟨hturn, ?_⟩
        rw [hschedule rfl, ← hturn.current]
      refine ⟨now, before, hhead, hinv, ?_, after, hround, .refl after⟩
      rw [timeline_append, hlines, printedLines_dispatch, timeline_opening]
  | refuse | failed => exact absurd rfl (hruns _)
  | @skip now p skipped todo rs hage =>
      obtain ⟨hlines, after, hround, hsame⟩ := hwithin
      refine ⟨s, before, hhead, hinv, ?_, after, hround, hsame⟩
      rw [timeline_append, hlines]
      simp [Config.printedLines, Config.printed, hage, timeline]
  | @grant now p skipped todo rs hage =>
      obtain ⟨hlines, after, hround, hsame⟩ := hwithin
      refine ⟨s, before, hhead, hinv, ?_, after, hround, (Sim.Same.granted ..).trans hsame⟩
      rw [timeline_append, hlines]
      simp [Config.printedLines, Config.printed, hage, timeline, Event.scheduling]
  | @block now p _ _ _ rs =>
      have hempty := hwaitqueue' rs.resourceId
      simp [Sim.blocked_waitqueue] at hempty
  | @grow now p =>
      obtain ⟨hlines, after, hround, hsame⟩ := hwithin
      have hticks : now.ticks = s.ticks := hsame.ticks.trans hround.turn.ticks
      refine ⟨s, before, hhead, hinv, ?_, after, hround, hsame.grow p⟩
      rw [timeline_append, hlines]
      simp [Config.printedLines, Config.printed, timeline, Event.scheduling, hticks]
  | @keep now p kept todo rs hduration =>
      obtain ⟨hlines, after, hround, hsame⟩ := hwithin
      refine ⟨s, before, hhead, hinv, ?_, after, hround, (Sim.Same.setHolding ..).trans hsame⟩
      rw [timeline_append, hlines]
      simp [Config.printedLines, Config.printed, hduration, timeline]
  | @drop now p kept todo rs prios hduration =>
      obtain ⟨hlines, after, hround, hsame⟩ := hwithin
      refine ⟨s, before, hhead, hinv, ?_, after, hround, (Sim.Same.freed ..).trans hsame⟩
      rw [timeline_append, hlines]
      simp [Config.printedLines, Config.printed, hduration, timeline, Event.scheduling]
  | @wake now p first waiter rest kept todo rs prios _ _ _ hqueue =>
      have hempty : (now.resources rs.resourceId).waitqueue = [] := hwaitqueue _
      rw [hqueue] at hempty
      cases hempty
  | @tick now p kept =>
      obtain ⟨hlines, after, hround, hsame⟩ := hwithin
      have hkept := hrun s before after p now.tick hhead hinv hround hsame.tick
      refine ⟨_, _, hstep, ?_, rfl, rfl⟩
      rw [timeline_append, hlines, show timeline (Config.printedLines _ _) = [] from rfl,
        List.append_nil]
      exact hkept
  | @finished now =>
      refine ⟨s, before, hhead, hinv, ?_⟩
      rw [timeline_append, show timeline (Config.printedLines _ _) = [] from rfl, List.append_nil]
      exact hwithin

/-- A run in which nobody waits and nothing fails finishes. -/
theorem smooth_finishes (hlaw : Lawful sched policy)
    (hsmooth : ∀ c, (sched.machine script).Reachable c → c.Smooth) :
    ∃ s log, (sched.logged script).Reachable (⟨.finished, s⟩, log) := by
  obtain ⟨count, hstop⟩ := exists_stopped hlaw script
  have hreach : (sched.machine script).Reachable _ := Machine.reachable_iterate _ _ count
  generalize sched.next^[count] script.start = c at hstop hreach
  obtain ⟨log, hlog⟩ : ∃ log, (sched.logged script).Reachable (c, log) := hreach.exists_log
  obtain ⟨pc, s⟩ := c
  rcases hstop with rfl | ⟨fault, hfail⟩
  · exact ⟨s, log, hlog⟩
  · exact absurd hfail ((hsmooth _ hreach).runs fault)

end Rule

theorem Script.Plain.regular {script : Script n} (hplain : script.Plain)
    (hlives : ∀ p, 1 ≤ (script p).lifespan) : script.Regular :=
  ⟨hlives, by simp [hplain _], by simp [hplain _]⟩

theorem plain_smooth {sched : Scheduler n} (hlaw : Lawful sched policy) {script : Script n}
    (hplain : script.Plain) (hlives : ∀ p, 1 ≤ (script p).lifespan) {c : Config n}
    (hreach : (sched.machine script).Reachable c) : c.Smooth :=
  ⟨(reachable_plain hplain hlaw hreach).waitqueue,
    reachable_not_failed hlaw (hplain.regular hlives) hreach⟩

/-! ## Head states -/

/-- What is known of a head state when nobody waits. -/
structure Sim.Head (script : Script n) (s : Sim n) : Prop where
  queued : s.Queued
  shaped : Pc.Shaped s .iterate
  waitqueue : ∀ r, (s.resources r).waitqueue = []
  lifespan : ∀ q, (s.procs q).lifespan = (script q).lifespan
  young : ∀ q, s.linked q → (s.procs q).age < (s.procs q).lifespan
  bounded : ∀ p, s.current = some p → (s.procs p).age ≤ (s.procs p).lifespan
  located : ∀ q, (s.procs q).status = .exit ∨ s.linked q ∨ s.current = some q

theorem reachable_head {sched : Scheduler n} (hlaw : Lawful sched policy) {script : Script n}
    (hregular : script.Regular)
    (hsmooth : ∀ c, (sched.machine script).Reachable c → c.Smooth) {s : Sim n}
    (hreach : (sched.machine script).Reachable ⟨.iterate, s⟩) : s.Head script where
  queued := (reachable_wellFormed hlaw hreach).queued
  shaped := (reachable_wellFormed hlaw hreach).shaped
  waitqueue := (hsmooth _ hreach).waitqueue
  lifespan := fun q => ((reachable_timed hlaw hreach).follows q).lifespan
  young := (reachable_prompt hlaw hregular hreach).linked
  bounded := (reachable_prompt hlaw hregular hreach).young
  located := reachable_located hlaw hregular hreach

theorem mem_retiring {s : Sim n} {p : Fin n} : p ∈ s.retiring ↔
    s.current = some p ∧ (s.procs p).age = (s.procs p).lifespan := by
  simp [Sim.retiring]

theorem mem_due {s : Sim n} {p : Fin n} : p ∈ s.due ↔
    p ∈ s.forkqueue ∧ (s.procs p).startsAt ≤ s.ticks := by
  simp [Sim.due]

section Head

variable {script : Script n} {s : Sim n} (hhead : s.Head script)

include hhead

theorem Sim.Head.current_running {p : Fin n} (hcurrent : s.current = some p) :
    (s.procs p).status = .running := by
  refine (hhead.shaped p hcurrent).resolve_right ?_
  rintro ⟨r, hwait⟩
  simp [hhead.waitqueue r] at hwait

/-- An unfinished current process is a candidate. -/
theorem Sim.Head.current_candidate {p : Fin n} (hcurrent : s.current = some p)
    (hage : (s.procs p).age < (s.procs p).lifespan) : p ∈ (__forkOnSchedule s).candidates := by
  have hprocs := forkOnSchedule_procs hhead.queued
  refine mem_candidates.mpr (.inr ⟨running_eq_some.mpr ⟨hcurrent, ?_⟩, ?_⟩)
  · rw [hprocs, hhead.current_running hcurrent]
    simp
  · rwa [hprocs]

/-- A process in the way of a turn is an exited one, a candidate, or about to retire. -/
theorem Sim.Head.place (q : Fin n) : (s.procs q).status = .exit ∨
    q ∈ (__forkOnSchedule s).forkqueue ∨ q ∈ (__forkOnSchedule s).candidates ∨ q ∈ s.retiring := by
  rcases hhead.located q with hexit | hlinked | hcurrent
  · exact .inl hexit
  · rcases (forkOnSchedule_linked s q).mpr hlinked with hfork | hready | ⟨r, hwait⟩
    · exact .inr (.inl hfork)
    · exact .inr (.inr (.inl (mem_candidates.mpr (.inl hready))))
    · have hempty : ((__forkOnSchedule s).resources r).waitqueue = [] := hhead.waitqueue r
      simp [hempty] at hwait
  · rcases (hhead.bounded q hcurrent).lt_or_eq with hage | hage
    · exact .inr (.inr (.inl (hhead.current_candidate hcurrent hage)))
    · exact .inr (.inr (.inr (mem_retiring.mpr ⟨hcurrent, hage⟩)))

theorem Sim.Head.candidate_young {p : Fin n} (hp : p ∈ (__forkOnSchedule s).candidates) :
    (s.procs p).age < (s.procs p).lifespan :=
  young_candidate hhead.queued hhead.young hp

/-- A candidate has been forked. -/
theorem Sim.Head.candidate_forked {p : Fin n} (hp : p ∈ (__forkOnSchedule s).candidates) :
    p ∉ (__forkOnSchedule s).forkqueue := by
  have hqueued := forkOnSchedule_queued hhead.queued
  intro hfork
  rcases candidate_status hqueued (forkOnSchedule_shaped hhead.queued hhead.shaped) hp with
    ⟨hready, -⟩ | ⟨-, hrun⟩
  · exact hqueued.disjoint p hfork hready
  · exact hqueued.not_linked hrun (.inl hfork)

theorem Sim.Head.retiring_status {p : Fin n} (hp : p ∈ s.retiring) :
    (s.procs p).status ≠ .exit := by
  rw [hhead.current_running (mem_retiring.mp hp).1]
  simp

/-- A turn retires the processes that are done, and only those. -/
theorem Turn.exit_iff {after : Sim n} {next : Option (Fin n)}
    (hturn : Turn policy (__forkOnSchedule s) next after) (q : Fin n) :
    (after.procs q).status = .exit ↔ (s.procs q).status = .exit ∨ q ∈ s.retiring := by
  have hprocs := forkOnSchedule_procs hhead.queued
  rw [hturn.status, Sim.turnedStatus, hprocs]
  by_cases hnext : next = some q
  · have hcandidate := hturn.next_candidate hnext
    have hyoung := hhead.candidate_young hcandidate
    have hretiring : q ∉ s.retiring := fun hq => absurd (mem_retiring.mp hq).2 hyoung.ne
    have hexit : (s.procs q).status ≠ .exit := by
      rcases candidate_status (forkOnSchedule_queued hhead.queued)
        (forkOnSchedule_shaped hhead.queued hhead.shaped) hcandidate with ⟨-, h⟩ | ⟨-, h⟩ <;>
        simp [← hprocs, h]
    simp [hnext, hretiring, hexit]
  · by_cases hcurrent : s.current = some q
    · have hrun := hhead.current_running hcurrent
      rw [if_neg hnext, if_pos (show (__forkOnSchedule s).current = some q from hcurrent)]
      by_cases hage : (s.procs q).age = (s.procs q).lifespan
      · simp [Process.updatedStatus, hage, mem_retiring, hcurrent]
      · simp [Process.updatedStatus, hage, mem_retiring, hrun]
    · rw [if_neg hnext, if_neg (show (__forkOnSchedule s).current ≠ some q from hcurrent)]
      simp [mem_retiring, hcurrent]

/-- Without candidates, every process that has been forked has exited or retires. -/
theorem Sim.Head.idle_done (hcandidates : (__forkOnSchedule s).candidates = []) {q : Fin n}
    (hforked : q ∉ (__forkOnSchedule s).forkqueue) :
    (s.procs q).status = .exit ∨ q ∈ s.retiring := by
  rcases hhead.place q with hexit | hfork | hcandidate | hretiring
  · exact .inl hexit
  · exact absurd hfork hforked
  · simp [hcandidates] at hcandidate
  · exact .inr hretiring

end Head

/-- Nothing is chosen only if there is nothing to choose. -/
theorem Turn.none_iff {s after : Sim n} {next : Option (Fin n)}
    (hturn : Turn policy (__forkOnSchedule s) next after) :
    next = none ↔ (__forkOnSchedule s).candidates = [] := by
  constructor
  · rintro rfl
    have hperm := hturn.chosen.perm
    rw [hturn.chosen.idle rfl] at hperm
    exact hperm.symm.eq_nil
  · intro hcandidates
    cases next with
    | none => rfl
    | some p =>
        have hcandidate := hturn.next_candidate rfl
        simp [hcandidates] at hcandidate

/-- What a round that runs `next` makes of a head state. -/
structure Sim.Advanced (s now : Sim n) (next : Option (Fin n)) : Prop where
  ticks : now.ticks = s.ticks + 1
  current : now.current = next
  forkqueue : now.forkqueue = (__forkOnSchedule s).forkqueue
  startsAt : ∀ q, (now.procs q).startsAt = (s.procs q).startsAt
  age : ∀ q, (now.procs q).age = (s.procs q).age + if next = some q then 1 else 0
  exit : ∀ q, (now.procs q).status = .exit ↔ (s.procs q).status = .exit ∨ q ∈ s.retiring

section Advance

variable {script : Script n} {s now after : Sim n} {p : Fin n} (hhead : s.Head script)

include hhead

theorem Turn.advanced_idle (hturn : Turn policy (__forkOnSchedule s) none after) :
    s.Advanced after.tick none where
  ticks := congrArg (· + 1) hturn.ticks
  current := hturn.current
  forkqueue := hturn.forkqueue
  startsAt := fun q => by
    show (after.procs q).startsAt = _
    rw [hturn.procs hhead.queued]
  age := fun q => by
    show (after.procs q).age = _
    rw [hturn.procs hhead.queued]
    simp
  exit := hturn.exit_iff hhead

theorem Turn.advanced_run (hturn : Turn policy (__forkOnSchedule s) (some p) after)
    (hsame : now.Same (after.grow p).tick) : s.Advanced now (some p) where
  ticks := hsame.ticks.trans (congrArg (· + 1) hturn.ticks)
  current := hsame.current.trans hturn.current
  forkqueue := hsame.forkqueue.trans hturn.forkqueue
  startsAt := fun q => by
    rw [hsame.procs q]
    show ((after.grow p).procs q).startsAt = _
    rw [after.grow_frame, hturn.procs hhead.queued]
  age := fun q => by
    rw [hsame.age]
    show ((after.grow p).procs q).age = _
    by_cases hq : q = p
    · rw [hq, after.grow_self, if_pos rfl, hturn.procs hhead.queued]
    · rw [after.grow_of_ne p hq, if_neg (by simpa using Ne.symm hq), hturn.procs hhead.queued]
      rfl
  exit := fun q => by
    rw [hsame.status]
    show ((after.grow p).procs q).status = _ ↔ _
    rw [after.grow_frame]
    exact hturn.exit_iff hhead q

end Advance

end OperatingSystem.Sched
