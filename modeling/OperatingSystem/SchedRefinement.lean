import OperatingSystem.SchedImplements
import OperatingSystem.SchedQueues

/-!
# The simulation on pointers refines the simulation on lists
-/

namespace OperatingSystem.Sched.Pointers

variable {n : Nat} {m : Memory n} {s : Sim n} {p : Fin n}

/-! ## Forking -/

/-- The state in which the loop of `__fork_on_schedule` has passed the first processes of the
queue. -/
def forking (s : Sim n) (passed todo : List (Fin n)) : Sim n :=
  { s with
    forkqueue := (passed.filter fun p => ¬ (s.procs p).startsAt ≤ s.ticks) ++ todo
    readyqueue := s.readyqueue ++ passed.filter fun p => (s.procs p).startsAt ≤ s.ticks }

theorem forkEntry_shows {passed todo : List (Fin n)} (hready : (s.procs p).status = .ready)
    (hnodup : (passed ++ p :: todo).Nodup) (hshows : Shows m (forking s passed (p :: todo))) :
    ∃ after, forkEntry m p = .ok after ∧ Shows after (forking s (passed ++ [p]) todo) := by
  have hmem : p ∈ (forking s passed (p :: todo)).lists .forkqueue :=
    List.mem_append_right _ List.mem_cons_self
  have hlive := hshows.live_of_mem hmem
  have hget : m.get p = .ok (s.procs p).fields := hshows.get hlive
  have hticks : m.ticks = s.ticks := hshows.ticks
  rw [forkEntry, hget, ok_bind, hticks]
  by_cases hdue : (s.procs p).startsAt ≤ s.ticks
  · have hfields : (s.procs p).fields.startsAt ≤ s.ticks := hdue
    obtain ⟨moved, hmove, hmoved⟩ := hshows.listMoveTail hmem .readyqueue
    have hrest : ((forking s passed (p :: todo)).lists .forkqueue).erase p =
        (passed.filter fun p => ¬ (s.procs p).startsAt ≤ s.ticks) ++ todo :=
      Shows.erase_split (hnodup.sublist (List.filter_sublist.append (.refl _)))
    have hnext : forking s (passed ++ [p]) todo =
        ((forking s passed (p :: todo)).setList
          ((passed.filter fun p => ¬ (s.procs p).startsAt ≤ s.ticks) ++ todo) .forkqueue).setList
          (s.readyqueue ++ (passed.filter fun p => (s.procs p).startsAt ≤ s.ticks) ++ [p])
          .readyqueue := by
      simp [forking, Sim.setList, List.filter_append, hdue]
    rw [hrest] at hmoved
    obtain ⟨after, hstatus, hafter⟩ :=
      (hnext ▸ hmoved : Shows moved (forking s (passed ++ [p]) todo)).setStatus
        (show (forking s (passed ++ [p]) todo).Live p from hlive)
        (show ProcessStatus.ready ≠ .exit by simp)
    have hsame : (forking s (passed ++ [p]) todo).setStatus p .ready =
        forking s (passed ++ [p]) todo := by
      have hself := setStatus_self (forking s (passed ++ [p]) todo) p
      rwa [show ((forking s (passed ++ [p]) todo).procs p).status = .ready from hready] at hself
    rw [hsame] at hafter
    refine ⟨after, ?_, hafter⟩
    rw [if_pos hfields, hmove, ok_bind, hstatus]
  · have hfields : ¬ (s.procs p).fields.startsAt ≤ s.ticks := hdue
    have hnext : forking s (passed ++ [p]) todo = forking s passed (p :: todo) := by
      simp [forking, List.filter_append, not_le.mp hdue]
    rw [if_neg hfields, hnext]
    exact ⟨m, rfl, hshows⟩

theorem forkOnSchedule_shows (hshows : Shows m s) (hqueued : s.Queued) :
    ∃ after, __forkOnSchedule m = .ok after ∧ Shows after (Sched.__forkOnSchedule s) := by
  have hforked : Sched.__forkOnSchedule s = forking s s.forkqueue [] := by
    rw [Sim.ext_iff]
    refine ⟨forkOnSchedule_procs hqueued, ?_, rfl, rfl, rfl, rfl⟩
    simp [forking, Sched.__forkOnSchedule]
  let Inv : List (Fin n) → Memory n → Prop := fun todo m =>
    ∃ passed, s.forkqueue = passed ++ todo ∧ Shows m (forking s passed todo)
  have hnext : ∀ {p todo m}, Inv (p :: todo) m →
      m.queues.next (.inr p) = Links.first .forkqueue todo := by
    rintro p todo m ⟨passed, -, hshows⟩
    have hlist : (forking s passed (p :: todo)).lists .forkqueue =
      (passed.filter fun p => ¬ (s.procs p).startsAt ≤ s.ticks) ++ p :: todo := rfl
    exact hshows.queues.next_elem hlist
  have hbody : ∀ {p todo m}, Inv (p :: todo) m →
      ∃ after, forkEntry m p = .ok after ∧ Inv todo after := by
    rintro p todo m ⟨passed, hsplit, hshows⟩
    have hmem : p ∈ s.forkqueue := by simp [hsplit]
    obtain ⟨after, hrun, hafter⟩ :=
      forkEntry_shows (hqueued.fork p hmem).1 (hsplit ▸ hqueued.forkNodup) hshows
    exact ⟨after, hrun, passed ++ [p], by simp [hsplit], hafter⟩
  have hinit : Inv s.forkqueue m := ⟨[], rfl, by simpa [forking] using hshows⟩
  have hlength : s.forkqueue.length ≤ n := by
    simpa using hqueued.forkNodup.length_le_card
  obtain ⟨after, hloop, passed, hpassed, hafter⟩ :
      ∃ after, Links.forEachEntrySafe Memory.queues .forkqueue .astray forkEntry n
        (Links.first .forkqueue s.forkqueue) m = .ok after ∧ Inv [] after :=
    Links.forEachEntrySafe_rule Inv hnext hbody hlength hinit
  have hfirst : m.queues.next (.inl .forkqueue) = Links.first .forkqueue s.forkqueue :=
    hshows.queues.next_head _
  rw [List.append_nil] at hpassed
  refine ⟨after, ?_, ?_⟩
  · rw [__forkOnSchedule, hfirst, hloop]
  · rw [hforked, hpassed]
    exact hafter

/-! ## The process that ran -/

/-- The memory after a process has been freed. -/
theorem exit_shows (hshows : Shows m s) (hfree : ¬ s.linked p) :
    Shows { m with procs := Function.update m.procs p none } (s.setStatus p .exit) := by
  have hlives : ∀ q, (s.setStatus p .exit).Live q ↔ q ≠ p ∧ s.Live q := by
    intro q
    by_cases hq : q = p <;> simp [Sim.Live, setStatus_procs, hq]
  have hslots : (s.setStatus p .exit).slots = s.slots :=
    Sim.slots_congr fun q => by rw [setStatus_procs]; exact ⟨rfl, rfl⟩
  constructor
  case live =>
    intro q hq
    obtain ⟨hqp, hlive⟩ := (hlives q).mp hq
    rw [setStatus_procs, if_neg hqp]
    exact (Function.update_of_ne hqp _ _).trans (hshows.live q hlive)
  case freed =>
    intro q hq
    rw [hlives, not_and] at hq
    by_cases hqp : q = p
    · subst hqp
      exact Function.update_self _ _ _
    · exact (Function.update_of_ne hqp _ _).trans (hshows.freed q (hq hqp))
  case linked =>
    intro q hq
    refine (hlives q).mpr ⟨?_, hshows.linked q hq⟩
    rintro rfl
    exact hfree hq
  case queues => exact hshows.queues
  case entries =>
    rw [hslots]
    exact hshows.entries
  case schedules =>
    intro q rs hrs
    rw [setStatus_procs] at hrs
    exact hshows.schedules q rs hrs
  case unlisted =>
    rw [hslots]
    exact hshows.unlisted
  case owner => exact hshows.owner
  case current => exact hshows.current
  case ticks => exact hshows.ticks

/-- The three assertions and the release of a process that has reached its lifespan. -/
theorem exit_agrees (hshows : Shows m s) (hlive : s.Live p) :
    Agrees Shows (do
        let m ← m.setStatus p .exit
        __exitProcess m p) (Sched.__exitProcess (s.setStatus p .exit) p) := by
  have hfields : ((s.setStatus p .exit).procs p).resourcesHolding = (s.procs p).resourcesHolding ∧
      ((s.setStatus p .exit).procs p).resourcesToAcquire = (s.procs p).resourcesToAcquire := by
    rw [setStatus_procs]
    exact ⟨rfl, rfl⟩
  have hlinked := hshows.listEmpty_iff p
  have hholding : m.entries.listEmpty (.inl (.resourcesHolding p)) = true ↔
      (s.procs p).resourcesHolding = [] := by
    simp [hshows.entries.listEmpty, Sim.slots]
  have hpending : m.entries.listEmpty (.inl (.resourcesToAcquire p)) = true ↔
      (s.procs p).resourcesToAcquire = [] := by
    simp [hshows.entries.listEmpty, Sim.slots]
  simp only [Memory.setStatus, Memory.modify, Memory.get, hshows.live p hlive, ok_bind,
    __exitProcess, Function.update_self, hlinked, hholding, hpending, Function.update_idem,
    Sched.__exitProcess, hfields]
  by_cases hlist : s.linked p
  · have hlist' : (s.setStatus p .exit).linked p := hlist
    simp only [hlist, hlist', not_true_eq_false, not_false_eq_true, if_true]
    exact rfl
  · have hlist' : ¬ (s.setStatus p .exit).linked p := hlist
    simp only [hlist, hlist', not_true_eq_false, not_false_eq_true, if_false]
    by_cases hheld : (s.procs p).resourcesHolding = []
    · by_cases hrest : (s.procs p).resourcesToAcquire = []
      · simp only [hheld, hrest, ne_eq, not_true_eq_false, if_false]
        exact exit_shows hshows hlist
      · simp only [hheld, hrest, ne_eq, not_true_eq_false, not_false_eq_true, if_false, if_true]
        exact rfl
    · simp only [hheld, ne_eq, not_false_eq_true, if_true]
      exact rfl

theorem retire_agrees (hshows : Shows m s) (hlive : s.Live p) :
    Agrees Shows (if (s.procs p).age = (s.procs p).lifespan then do
        let m ← m.setStatus p .exit
        __exitProcess m p
      else .ok m) (if (s.procs p).age = (s.procs p).lifespan then
        Sched.__exitProcess (s.setStatus p .exit) p
      else .ok s) := by
  by_cases hage : (s.procs p).age = (s.procs p).lifespan
  · rw [if_pos hage, if_pos hage]
    exact exit_agrees hshows hlive
  · rw [if_neg hage, if_neg hage]
    exact hshows

theorem updatePrev_agrees (hshows : Shows m s) {prev : Option (Fin n)}
    (hlive : ∀ p, prev = some p → s.Live p) :
    Agrees Shows (updatePrev m prev) (Sched.updatePrev s prev) := by
  cases prev with
  | none => exact hshows
  | some p =>
      have hp := hlive p rfl
      simp only [updatePrev, hshows.get hp, ok_bind, Process.fields, Sched.updatePrev]
      by_cases hrun : (s.procs p).status = .running
      · obtain ⟨readied, hready, hreadied⟩ :=
          hshows.setStatus hp (show ProcessStatus.ready ≠ .exit by simp)
        have hretire := retire_agrees (p := p) hreadied (by simp [Sim.Live, setStatus_procs])
        simp only [hrun, if_true, hready, ok_bind]
        simp only [setStatus_procs] at hretire ⊢
        exact hretire
      · simp only [hrun, if_false]
        exact retire_agrees hshows hp

/-- The update changes the status of one process, which it frees if its time has come. -/
theorem updatePrev_live {after : Sim n} {prev : Option (Fin n)}
    (hupdate : Sched.updatePrev s prev = .ok after) :
    after.current = s.current ∧ ∀ q, s.Live q →
      (prev = some q → (s.procs q).age ≠ (s.procs q).lifespan) → after.Live q := by
  cases prev with
  | none =>
      cases hupdate
      exact ⟨rfl, fun q hq _ => hq⟩
  | some p =>
      by_cases hdetached : (s.procs p).age = (s.procs p).lifespan → s.Detached p
      · rw [updatePrev_ok hdetached, Except.ok.injEq] at hupdate
        subst hupdate
        refine ⟨rfl, fun q hq hage => ?_⟩
        rw [Sim.Live, setStatus_procs]
        by_cases hqp : q = p
        · subst hqp
          simp only [if_true, Process.updatedStatus, if_neg (hage rfl)]
          split
          · simp
          · exact hq
        · simpa [hqp, Sim.Live] using hq
      · obtain ⟨hage, hattached⟩ := Classical.not_imp.mp hdetached
        obtain ⟨fault, herror⟩ := updatePrev_error hage hattached
        rw [herror] at hupdate
        cases hupdate

/-! ## Steps -/

/-- A configuration on pointers shows one on lists. A loop over a list stands at the first of
the entries to come. A run that has failed has failed in the same way. -/
def Config.Shows (c : Config n) (d : Sched.Config n) : Prop :=
  match c.pc, d.pc with
  | .iterate, .iterate => Pointers.Shows c.memory d.sim
  | .acquire pos, .acquire p _ todo => Pointers.Shows c.memory d.sim ∧
      pos = Links.first (.resourcesToAcquire p) (todo.map (ResourceSchedule.address p))
  | .release pos, .release p _ todo => Pointers.Shows c.memory d.sim ∧
      pos = Links.first (.resourcesHolding p) (todo.map (ResourceSchedule.address p))
  | .finished, .finished => Pointers.Shows c.memory d.sim
  | .failed stop, .failed fault => stop = .fault fault
  | _, _ => False

theorem runCurrent_agrees (hshows : Shows m s) (hlive : ∀ p, s.current = some p → s.Live p) :
    Agrees Config.Shows (runCurrent m) (Sched.runCurrent s) := by
  rw [runCurrent, Sched.runCurrent, hshows.current]
  cases hcurrent : s.current with
  | none =>
      simp only [hshows.listEmpty, Sim.lists, List.isEmpty_iff]
      by_cases hdone : s.readyqueue = [] ∧ s.forkqueue = []
      · simp only [hdone]
        exact hshows
      · simp only [hdone, if_false]
        exact hshows.tick
  | some p =>
      obtain ⟨running, hrun, hrunning⟩ :=
        hshows.setStatus (hlive p hcurrent) (show ProcessStatus.running ≠ .exit by simp)
      have hlinked := hrunning.listEmpty_iff p
      simp only [hrun, ok_bind, hlinked]
      by_cases hlist : (s.setStatus p .running).linked p
      · simp only [hlist, not_true_eq_false, not_false_eq_true, if_true]
        exact rfl
      · simp only [hlist, not_false_eq_true, not_true_eq_false, if_false]
        exact ⟨hrunning, hrunning.next_pending p⟩

theorem candidate_live (hqueued : s.Queued) (hshaped : Pc.Shaped s .iterate)
    (hmem : p ∈ s.candidates) : s.Live p := by
  rw [Sim.Live]
  rcases candidate_status hqueued hshaped hmem with ⟨-, hstatus⟩ | ⟨-, hstatus⟩ <;> simp [hstatus]

/-- The process that is chosen again is not the one that has just reached its lifespan. -/
theorem candidate_unfinished (hqueued : s.Queued) (hshaped : Pc.Shaped s .iterate)
    (hmem : p ∈ s.candidates) (hcurrent : s.current = some p) :
    (s.procs p).age ≠ (s.procs p).lifespan := by
  rcases mem_candidates.mp hmem with hready | ⟨-, hage⟩
  · have hstatus := (hqueued.ready p hready).1
    rcases current_status hqueued hshaped hcurrent with hrun | hwait
    · simp [hstatus] at hrun
    · simp [hstatus] at hwait
  · exact hage.ne

section Steps

variable {code : Scheduler n} {sched : Sched.Scheduler n} {Guard : Sim n → Prop}
  (himpl : Implements code sched Guard)
include himpl

theorem iteration_agrees (hshows : Shows m s) (hqueued : s.Queued)
    (hshaped : Pc.Shaped s .iterate) (hguard : Guard (Sched.__forkOnSchedule s)) :
    Agrees Config.Shows (iteration code m) (Sched.iteration sched s) := by
  obtain ⟨forked, hfork, hforked⟩ := forkOnSchedule_shows hshows hqueued
  have hqueued' := forkOnSchedule_queued hqueued
  have hshaped' := forkOnSchedule_shaped hqueued hshaped
  rw [iteration, Sched.iteration, hfork, ok_bind]
  refine (himpl.schedule hforked hqueued' hshaped' hguard).bind ?_
  rintro ⟨next, chosen⟩ ⟨next', after⟩ hschedule ⟨hnext, hchosen⟩
  obtain rfl : next = next' := hnext
  obtain ⟨queue, rfl, hcandidate⟩ := himpl.chosen hqueued' hguard hschedule
  have hcurrent : forked.current = (Sched.__forkOnSchedule s).current := hforked.current
  rw [hcurrent]
  refine (updatePrev_agrees (hchosen.setCurrent next)
    fun p hp => current_live hqueued' hshaped' p hp).bind ?_
  rintro updated after hupdate hupdated
  obtain ⟨hsame, hlive⟩ := updatePrev_live hupdate
  refine runCurrent_agrees hupdated fun p hp => ?_
  have hmem := hcandidate p (hsame.symm.trans hp)
  have hchosenLive : (Sched.__forkOnSchedule s).Live p := candidate_live hqueued' hshaped' hmem
  exact hlive p hchosenLive (candidate_unfinished hqueued' hshaped' hmem)

/-- A turn of the loop of `__run_current_acquire`. -/
theorem acquireTurn_shows (hshows : Shows m s) (hqueued : s.Queued) (howned : s.Owned)
    {skipped todo : List ResourceSchedule} (hruns : s.Runs p)
    (hpending : (s.procs p).resourcesToAcquire = skipped ++ todo) :
    ∃ after, acquireTurn code m (Links.first (.resourcesToAcquire p)
        (todo.map (ResourceSchedule.address p))) = .ok after ∧
      after.Shows (sched.next ⟨.acquire p skipped todo, s⟩) := by
  have hlive := live_of_runs hruns
  have hcurrent : m.current = some p := hshows.current.trans hruns.1
  cases todo with
  | nil =>
      obtain ⟨grown, hgrow, hgrown⟩ := hshows.grow hlive
      have hnext := hgrown.next_holding p
      rw [Sim.grow_self] at hnext
      refine ⟨⟨.release _, grown⟩, ?_, ⟨hgrown, hnext⟩⟩
      simp only [List.map_nil, Links.first_nil, acquireTurn, hcurrent, deref, ok_bind,
        hshows.get hlive, if_true, hgrow]
  | cons rs todo =>
      have hschedule := hshows.getSchedule (.inl (by simp [hpending]) :
        rs ∈ (s.procs p).resourcesToAcquire ∨ rs ∈ (s.procs p).resourcesHolding)
      have hnext := hshows.next_pending_entry hpending
      simp only [List.map_cons, Links.first_cons, acquireTurn, hcurrent, deref, ok_bind,
        hshows.get hlive, reduceCtorEq, if_false, containerOf, hschedule, hnext]
      by_cases hage : rs.atAge = (s.procs p).age
      · have hfields : rs.atAge = (s.procs p).fields.age := hage
        obtain ⟨acquired, hacquire, hacquired⟩ :=
          himpl.acquire rs.resourceId hshows hqueued howned hruns
        have hkeeps := himpl.acquire_keeps s p rs.resourceId
        simp only [Sched.Scheduler.next, acquireEntry, if_pos hfields, if_pos hage, hacquire,
          ok_bind]
        rcases hresult : sched.acquire s p rs.resourceId with ⟨granted, middle⟩
        rw [hresult] at hacquired hkeeps
        cases granted with
        | true =>
            have hpending' : (middle.procs p).resourcesToAcquire = skipped ++ rs :: todo :=
              (hkeeps.pending p).trans hpending
            obtain ⟨moved, hmove, hmoved⟩ :=
              hacquired.moveEntry hpending' (hkeeps.live p hlive)
            have hcurrent' : acquired.current = some p :=
              hacquired.current.trans (hkeeps.current.trans hruns.1)
            refine ⟨⟨.acquire _, moved⟩, ?_, hmoved, rfl⟩
            simp only [if_true, hcurrent', ok_bind, hmove]
        | false => exact ⟨⟨.iterate, acquired.tick⟩, rfl, hacquired.tick⟩
      · have hfields : ¬ rs.atAge = (s.procs p).fields.age := hage
        rw [if_neg hfields]
        refine ⟨_, rfl, ?_⟩
        simp only [Sched.Scheduler.next, acquireEntry, if_neg hage]
        exact ⟨hshows, rfl⟩

/-- A turn of the loop of `__run_current_release`. -/
theorem release_shows (hshows : Shows m s) (hruns : s.Runs p)
    {kept todo : List ResourceSchedule}
    (hholding : (s.procs p).resourcesHolding = kept ++ todo) :
    (code.next ⟨.release (Links.first (.resourcesHolding p)
      (todo.map (ResourceSchedule.address p))), m⟩).Shows
      (sched.next ⟨.release p kept todo, s⟩) := by
  have hlive := live_of_runs hruns
  have hcurrent : m.current = some p := hshows.current.trans hruns.1
  cases todo with
  | nil =>
      simp only [Scheduler.next, List.map_nil, Links.first_nil, releaseTurn, hcurrent, deref,
        ok_bind, if_true]
      exact hshows.tick
  | cons rs todo =>
      have hschedule := hshows.getSchedule (.inr (by simp [hholding]) :
        rs ∈ (s.procs p).resourcesToAcquire ∨ rs ∈ (s.procs p).resourcesHolding)
      have hnext := hshows.next_holding_entry hholding
      have hcounted := hshows.countDown hholding
      simp only [Scheduler.next, List.map_cons, Links.first_cons, releaseTurn, hcurrent, deref,
        ok_bind, reduceCtorEq, if_false, containerOf, hschedule, hnext]
      by_cases hduration : rs.countDown.duration = 0
      · have hfields : rs.duration - 1 = 0 := hduration
        have hruns' : (s.setHolding p (kept ++ rs.countDown :: todo)).Runs p :=
          hruns.of_same rfl (by rw [Sim.setHolding_self])
        have hrelease := himpl.release rs.resourceId hcounted hruns'
        simp only [Sched.Scheduler.next, releaseEntry, if_pos hfields, if_pos hduration,
          countDown_resourceId]
        cases hresult : sched.release (s.setHolding p (kept ++ rs.countDown :: todo)) p
            rs.resourceId with
        | error fault =>
            rw [hresult] at hrelease
            rw [hrelease.of_error]
            exact rfl
        | ok middle =>
            have hkeeps := himpl.release_keeps hresult
            rw [hresult] at hrelease
            obtain ⟨released, hrun, hreleased⟩ := hrelease.of_ok
            have hholding' : (middle.procs p).resourcesHolding = kept ++ rs.countDown :: todo := by
              rw [hkeeps.holding, Sim.setHolding_self]
            obtain ⟨deleted, hdelete, hdeleted⟩ :=
              hreleased.delEntry hholding' (hkeeps.live p (live_of_runs hruns'))
            rw [hrun, ok_bind, show ResourceSchedule.address p rs =
              ResourceSchedule.address p rs.countDown from rfl, hdelete, ok_bind]
            exact ⟨hdeleted, rfl⟩
      · have hfields : ¬ rs.duration - 1 = 0 := hduration
        simp only [Sched.Scheduler.next, releaseEntry, if_neg hfields, if_neg hduration]
        exact ⟨hcounted, rfl⟩

/-- **Step refinement.** A step on pointers does what the step on lists does. -/
theorem next_shows {c : Config n} {d : Sched.Config n} (hshows : c.Shows d) (hwf : d.WellFormed)
    (hguard : d.pc = .iterate → Guard (Sched.__forkOnSchedule d.sim)) :
    (code.next c).Shows (sched.next d) := by
  obtain ⟨pc, m⟩ := c
  obtain ⟨pc', s⟩ := d
  have hshaped := hwf.shaped
  cases pc' with
  | iterate =>
      cases pc with
      | iterate =>
          have hagrees := iteration_agrees himpl hshows hwf.queued hshaped (hguard rfl)
          simp only [Scheduler.next, Sched.Scheduler.next]
          cases hresult : Sched.iteration sched s with
          | ok after =>
              rw [hresult] at hagrees
              obtain ⟨c, hrun, hc⟩ := hagrees.of_ok
              rw [hrun]
              exact hc
          | error fault =>
              rw [hresult] at hagrees
              rw [hagrees.of_error]
              exact rfl
      | acquire | release | finished | failed => exact hshows.elim
  | acquire p skipped todo =>
      cases pc with
      | acquire pos =>
          obtain ⟨hmemory, rfl⟩ := hshows
          obtain ⟨after, hrun, hafter⟩ := acquireTurn_shows himpl hmemory hwf.queued hwf.owned
            hshaped.1 hshaped.2.1
          simp only [Scheduler.next, hrun]
          exact hafter
      | iterate | release | finished | failed => exact hshows.elim
  | release p kept todo =>
      cases pc with
      | release pos =>
          obtain ⟨hmemory, rfl⟩ := hshows
          exact release_shows himpl hmemory hshaped.1 hshaped.2
      | iterate | acquire | finished | failed => exact hshows.elim
  | finished =>
      cases pc with
      | finished => exact hshows
      | iterate | acquire | release | failed => exact hshows.elim
  | failed fault =>
      cases pc with
      | failed stop => exact hshows
      | iterate | acquire | release | finished => exact hshows.elim

end Steps

end OperatingSystem.Sched.Pointers
