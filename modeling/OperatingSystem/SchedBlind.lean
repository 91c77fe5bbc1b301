import OperatingSystem.SchedWakeup

/-!
# Policies that do not see a blocked process

`sjf_schedule`, `srtf_schedule` and `rr_schedule` never test the status of `current`. They
run a blocked process again, or put it on the ready queue, unless it has no time left: a
process with lifespan 0 is the only one that blocks so late. As long as no other process
blocks they are as good as `fifo_schedule`, and what is proved of lawful schedulers holds
of them.
-/

namespace OperatingSystem.Sched

variable {n : Nat}

/-- If `current` is blocked, it has no time left. -/
def Sim.BlockedDone (s : Sim n) : Prop :=
  ∀ p, s.current = some p → (s.procs p).status = .wait → (s.procs p).lifespan ≤ (s.procs p).age

/-- At the head of the main loop. -/
def Config.BlockedDone (c : Config n) : Prop := c.pc = .iterate → c.sim.BlockedDone

/-- The `schedule` callback neither returns the process nor has it on the ready queue. -/
def Scheduler.LeavesOut (sched : Scheduler n) (s : Sim n) (p : Fin n) : Prop :=
  ∀ next after, sched.schedule s = .ok (next, after) → next ≠ some p ∧ p ∉ after.readyqueue

instance (s : Sim n) : Decidable s.BlockedDone :=
  inferInstanceAs (Decidable (∀ _, _ → _ → _))

instance (c : Config n) : Decidable c.BlockedDone := inferInstanceAs (Decidable (_ → _))

/-- The `schedule` callback makes a choice that `fifo_schedule` could make. -/
structure Scheduler.Picks (sched : Scheduler n) (s : Sim n) (next : Option (Fin n))
    (queue : List (Fin n)) : Prop where
  schedule : sched.schedule s = .ok (next, { s with readyqueue := queue })
  chosen : Chosen fifoPolicy s next queue

/-- The callbacks of a scheduler that treats `current` as if it were ready. -/
structure Blind (sched : Scheduler n) : Prop where
  acquire : sched.acquire = fcfsAcquire
  release : sched.release = fcfsRelease
  keeps : ∀ (s : Sim n) p, s.current = some p → (s.procs p).age < (s.procs p).lifespan →
    ¬ sched.LeavesOut s p
  chosen : ∀ s : Sim n, (∀ q ∈ s.readyqueue, (s.procs q).age ≤ (s.procs q).lifespan) →
    s.BlockedDone → sched.schedule s = .error .nullPointer ∨
      ∃ next queue, sched.Picks s next queue

/-! ## The three callbacks -/

section Callbacks

variable {s : Sim n}

theorem candidates_of_unfinished (hdone : s.BlockedDone) {p : Fin n}
    (hcurrent : s.current = some p) (hage : (s.procs p).age < (s.procs p).lifespan) :
    s.candidates = s.readyqueue ++ [p] := by
  have hstatus : (s.procs p).status ≠ .wait := fun hwait =>
    absurd (hdone p hcurrent hwait) (not_le.mpr hage)
  rw [candidates_of_some (running_eq_some.mpr ⟨hcurrent, hstatus⟩), if_pos hage]

theorem candidates_of_finished {p : Fin n} (hcurrent : s.current = some p)
    (hage : ¬ (s.procs p).age < (s.procs p).lifespan) : s.candidates = s.readyqueue := by
  cases hrunning : s.running with
  | none => exact candidates_of_none hrunning
  | some q =>
      obtain rfl : p = q :=
        Option.some.inj (hcurrent.symm.trans (running_eq_some.mp hrunning).1)
      rw [candidates_of_some hrunning, if_neg hage]

/-- The queue after an unfinished `current` has been put at its head has the candidates. -/
theorem requeue_head_perm (hdone : s.BlockedDone) {p : Fin n} (hcurrent : s.current = some p) :
    (if (s.procs p).age < (s.procs p).lifespan then p :: s.readyqueue
      else s.readyqueue).Perm s.candidates := by
  split
  next hage =>
    rw [candidates_of_unfinished hdone hcurrent hage]
    exact (List.perm_append_singleton p s.readyqueue).symm
  next hage => rw [candidates_of_finished hcurrent hage]

/-- The queue after an unfinished `current` has been put at its tail has the candidates. -/
theorem requeue_tail_perm (hdone : s.BlockedDone) {p : Fin n} (hcurrent : s.current = some p) :
    (if (s.procs p).age < (s.procs p).lifespan then s.readyqueue ++ [p]
      else s.readyqueue).Perm s.candidates := by
  split
  next hage => rw [candidates_of_unfinished hdone hcurrent hage]
  next hage => rw [candidates_of_finished hcurrent hage]

theorem candidates_of_null (hcurrent : s.current = none) : s.candidates = s.readyqueue :=
  candidates_of_none (by simp [Sim.running, hcurrent])

theorem chosen_idle (hcandidates : s.candidates = s.readyqueue) (hready : s.readyqueue = []) :
    Chosen fifoPolicy s none s.readyqueue := by
  rw [hready]
  exact chosen_none (hcandidates.trans hready)

/-- The process that runs on stays the only candidate off the queue. -/
theorem chosen_running (hdone : s.BlockedDone) {p : Fin n} (hcurrent : s.current = some p)
    (hage : (s.procs p).age < (s.procs p).lifespan) :
    Chosen fifoPolicy s (some p) s.readyqueue where
  perm := by
    rw [candidates_of_unfinished hdone hcurrent hage]
    exact (List.perm_append_singleton p s.readyqueue).symm
  idle := by simp
  prefers := fun _ _ _ _ => trivial

/-- Taking a candidate off the queue that lists them. -/
theorem chosen_erase {p : Fin n} {queue : List (Fin n)} (hperm : queue.Perm s.candidates)
    (hmem : p ∈ queue) : Chosen fifoPolicy s (some p) (queue.erase p) where
  perm := (List.perm_cons_erase hmem).symm.trans hperm
  idle := by simp
  prefers := fun _ _ _ _ => trivial

/-- A process on the queue is on it after another one has been taken off. -/
theorem erased_or_kept {p q : Fin n} {queue : List (Fin n)} (hmem : p ∈ queue) :
    some q = some p ∨ p ∈ queue.erase q := by
  by_cases heq : q = p
  · exact .inl (congrArg some heq)
  · exact .inr ((List.mem_erase_of_ne (Ne.symm heq)).mpr hmem)

theorem not_leavesOut {sched : Scheduler n} {p : Fin n} {next : Option (Fin n)} {after : Sim n}
    (hschedule : sched.schedule s = .ok (next, after))
    (hkept : next = some p ∨ p ∈ after.readyqueue) : ¬ sched.LeavesOut s p := by
  intro hleaves
  obtain ⟨hnext, hready⟩ := hleaves next after hschedule
  exact hkept.elim hnext hready

theorem sjfSmallest_mem {lsChk : Nat} {p : Fin n} (hsmallest : sjfSmallest s lsChk = some p) :
    p ∈ s.readyqueue := by
  suffices hgen : ∀ (xs : List (Fin n)) (best : Option (Fin n)) (bound : Nat),
      (xs.foldl (fun found sjfProc =>
        if (s.procs sjfProc).lifespan < found.2 then (some sjfProc, (s.procs sjfProc).lifespan)
        else found) (best, bound)).1 = some p → best = some p ∨ p ∈ xs by
    exact (hgen s.readyqueue none lsChk hsmallest).resolve_left (by simp)
  intro xs
  induction xs with
  | nil =>
      intro best bound hfound
      exact .inl hfound
  | cons x xs ih =>
      intro best bound hfound
      rw [List.foldl_cons] at hfound
      by_cases hlt : (s.procs x).lifespan < bound
      · simp only [if_pos hlt] at hfound
        rcases ih _ _ hfound with hbest | hmem
        · exact .inr (by simp [Option.some.inj hbest])
        · exact .inr (List.mem_cons_of_mem x hmem)
      · simp only [if_neg hlt] at hfound
        exact (ih _ _ hfound).imp_right (List.mem_cons_of_mem x)

theorem sjfScheduler_blind : Blind (sjfScheduler : Scheduler n) where
  acquire := rfl
  release := rfl
  keeps := by
    intro s p hcurrent hage
    have hunfinished : s.unfinished = some p := by simp [Sim.unfinished, hcurrent, hage]
    have hschedule : sjfSchedule s = .ok (some p, s) := by simp only [sjfSchedule, hunfinished]
    exact not_leavesOut hschedule (.inl rfl)
  chosen := by
    intro s _ hdone
    cases hunfinished : s.unfinished with
    | some p =>
        obtain ⟨hcurrent, hage⟩ : s.current = some p ∧ (s.procs p).age < (s.procs p).lifespan := by
          simpa [Sim.unfinished, Option.filter_eq_some_iff] using hunfinished
        have hschedule : sjfSchedule s = .ok (some p, s) := by
          simp only [sjfSchedule, hunfinished]
        exact .inr ⟨some p, s.readyqueue, hschedule, chosen_running hdone hcurrent hage⟩
    | none =>
        have hcandidates : s.candidates = s.readyqueue := by
          cases hcurrent : s.current with
          | none => exact candidates_of_null hcurrent
          | some p =>
              refine candidates_of_finished hcurrent fun hage => ?_
              have hsome : s.unfinished = some p := by simp [Sim.unfinished, hcurrent, hage]
              simp [hunfinished] at hsome
        cases hready : s.readyqueue with
        | nil =>
            have hschedule : sjfSchedule s = .ok (none, s) := by
              simp only [sjfSchedule, hunfinished, hready]
            exact .inr ⟨none, s.readyqueue, hschedule, chosen_idle hcandidates hready⟩
        | cons first rest =>
            cases hsmallest : sjfSmallest s 100 with
            | none =>
                left
                simp only [sjfScheduler, sjfSchedule, hunfinished, hready, hsmallest]
            | some smallest =>
                refine .inr ⟨some smallest, s.readyqueue.erase smallest, ?_,
                  chosen_erase (by rw [hcandidates]) (sjfSmallest_mem hsmallest)⟩
                simp only [sjfScheduler, sjfSchedule, hunfinished, hready, hsmallest]

theorem srtfScheduler_blind : Blind (srtfScheduler : Scheduler n) where
  acquire := rfl
  release := rfl
  keeps := by
    intro s p hcurrent hage
    cases hready : s.readyqueue with
    | nil =>
        have hschedule : srtfSchedule s = .ok (some p, s) := by
          simp only [srtfSchedule, hcurrent, hready, if_pos hage]
        exact not_leavesOut hschedule (.inl rfl)
    | cons first rest =>
        let queue := p :: first :: rest
        let smallest := scanMin (fun p => (s.procs p).lifespan) first queue
        have hmem : p ∈ queue := List.mem_cons_self
        by_cases hyoung : (s.procs smallest).age ≤ (s.procs smallest).lifespan
        · have hschedule : srtfSchedule s =
              .ok (some smallest, { s with readyqueue := queue.erase smallest }) := by
            simp only [srtfSchedule, hcurrent, hready, if_pos hage]
            exact if_pos hyoung
          exact not_leavesOut hschedule (erased_or_kept hmem)
        · have hschedule : srtfSchedule s = .ok (none, { s with readyqueue := queue }) := by
            simp only [srtfSchedule, hcurrent, hready, if_pos hage]
            exact if_neg hyoung
          exact not_leavesOut hschedule (.inr hmem)
  chosen := by
    intro s hages hdone
    refine .inr ?_
    cases hcurrent : s.current with
    | none =>
        have hcandidates := candidates_of_null hcurrent
        cases hready : s.readyqueue with
        | nil =>
            have hschedule : srtfSchedule s = .ok (none, s) := by
              simp only [srtfSchedule, hcurrent, hready]
            exact ⟨none, s.readyqueue, hschedule, chosen_idle hcandidates hready⟩
        | cons first rest =>
            let smallest := scanMin (fun p => (s.procs p).lifespan) first s.readyqueue
            have hmem : smallest ∈ s.readyqueue :=
              scanMin_mem_of_mem _ (hready ▸ List.mem_cons_self)
            refine ⟨some smallest, s.readyqueue.erase smallest, ?_,
              chosen_erase (by rw [hcandidates]) hmem⟩
            simp only [srtfScheduler, srtfSchedule, hcurrent, smallest, hready]
    | some p =>
        cases hready : s.readyqueue with
        | nil =>
            by_cases hage : (s.procs p).age < (s.procs p).lifespan
            · have hschedule : srtfSchedule s = .ok (some p, s) := by
                simp only [srtfSchedule, hcurrent, hready, if_pos hage]
              exact ⟨some p, s.readyqueue, hschedule, chosen_running hdone hcurrent hage⟩
            · have hschedule : srtfSchedule s = .ok (none, s) := by
                simp only [srtfSchedule, hcurrent, hready, if_neg hage]
              exact ⟨none, s.readyqueue, hschedule,
                chosen_idle (candidates_of_finished hcurrent hage) hready⟩
        | cons first rest =>
            let queue := if (s.procs p).age < (s.procs p).lifespan then p :: s.readyqueue
              else s.readyqueue
            let smallest := scanMin (fun p => (s.procs p).lifespan) first queue
            have hmem : smallest ∈ queue := by
              apply scanMin_mem_of_mem
              by_cases hage : (s.procs p).age < (s.procs p).lifespan <;> simp [queue, hage, hready]
            have hyoung : ∀ q ∈ queue, (s.procs q).age ≤ (s.procs q).lifespan := by
              intro q hq
              by_cases hage : (s.procs p).age < (s.procs p).lifespan
              · simp only [queue, if_pos hage, List.mem_cons] at hq
                rcases hq with rfl | hold
                · exact hage.le
                · exact hages q hold
              · simp only [queue, if_neg hage] at hq
                exact hages q hq
            refine ⟨some smallest, queue.erase smallest, ?_,
              chosen_erase (requeue_head_perm hdone hcurrent) hmem⟩
            have hsmallest := hyoung smallest hmem
            simp only [smallest, queue, hready] at hsmallest
            simp only [srtfScheduler, srtfSchedule, hcurrent, hready, smallest, queue]
            exact if_pos hsmallest

theorem rrScheduler_blind : Blind (rrScheduler : Scheduler n) where
  acquire := rfl
  release := rfl
  keeps := by
    intro s p hcurrent hage
    cases hready : s.readyqueue with
    | nil =>
        have hschedule : rrSchedule s = .ok (some p, s) := by
          simp only [rrSchedule, hcurrent, hready, if_pos hage]
        exact not_leavesOut hschedule (.inl rfl)
    | cons first rest =>
        have hschedule : rrSchedule s =
            .ok (some first, { s with readyqueue := (s.readyqueue ++ [p]).erase first }) := by
          simp only [rrSchedule, hcurrent, hready, if_pos hage]
        exact not_leavesOut hschedule (erased_or_kept (by simp))
  chosen := by
    intro s _ hdone
    cases hcurrent : s.current with
    | none =>
        cases hready : s.readyqueue with
        | nil => exact .inl (by simp only [rrScheduler, rrSchedule, hcurrent, hready])
        | cons first rest =>
            have hcandidates := candidates_of_null hcurrent
            refine .inr ⟨some first, s.readyqueue.erase first, ?_,
              chosen_erase (by rw [hcandidates]) (hready ▸ List.mem_cons_self)⟩
            simp only [rrScheduler, rrSchedule, hcurrent, hready]
    | some p =>
        cases hready : s.readyqueue with
        | nil =>
            by_cases hage : (s.procs p).age < (s.procs p).lifespan
            · have hschedule : rrSchedule s = .ok (some p, s) := by
                simp only [rrSchedule, hcurrent, hready, if_pos hage]
              exact .inr ⟨some p, s.readyqueue, hschedule, chosen_running hdone hcurrent hage⟩
            · have hschedule : rrSchedule s = .ok (none, s) := by
                simp only [rrSchedule, hcurrent, hready, if_neg hage]
              exact .inr ⟨none, s.readyqueue, hschedule,
                chosen_idle (candidates_of_finished hcurrent hage) hready⟩
        | cons first rest =>
            let queue := if (s.procs p).age < (s.procs p).lifespan then s.readyqueue ++ [p]
              else s.readyqueue
            have hmem : first ∈ queue := by
              by_cases hage : (s.procs p).age < (s.procs p).lifespan <;> simp [queue, hage, hready]
            refine .inr ⟨some first, queue.erase first, ?_,
              chosen_erase (requeue_tail_perm hdone hcurrent) hmem⟩
            simp only [rrScheduler, rrSchedule, hcurrent, hready, queue]

end Callbacks

theorem blindSchedulers_blind {sched : Scheduler n} (hsched : sched ∈ blindSchedulers n) :
    Blind sched := by
  simp only [blindSchedulers, List.mem_cons, List.not_mem_nil, or_false] at hsched
  rcases hsched with rfl | rfl | rfl
  · exact sjfScheduler_blind
  · exact srtfScheduler_blind
  · exact rrScheduler_blind

/-! ## Completing a blind scheduler -/

/-- The scheduler with `fifo_schedule` in place of the cases where it is not lawful. -/
def Scheduler.completed (sched : Scheduler n) : Scheduler n where
  schedule s :=
    match sched.schedule s with
    | .ok choice => if s.BlockedDone then .ok choice else fifoSchedule s
    | .error _ => fifoSchedule s
  acquire := fcfsAcquire
  release := fcfsRelease

theorem Blind.completed_lawful {sched : Scheduler n} (hblind : Blind sched) :
    Lawful sched.completed fifoPolicy where
  schedule := by
    intro s hages
    show ∃ next queue, sched.completed.schedule s = _ ∧ _
    simp only [Scheduler.completed]
    by_cases hdone : s.BlockedDone
    · rcases hblind.chosen s hages hdone with herror | ⟨next, queue, hpicks⟩
      · simp only [herror]
        exact fifoSchedule_chosen s
      · simp only [hpicks.schedule, if_pos hdone]
        exact ⟨next, queue, rfl, hpicks.chosen⟩
    · cases sched.schedule s with
      | ok choice =>
          simp only [if_neg hdone]
          exact fifoSchedule_chosen s
      | error fault => exact fifoSchedule_chosen s
  acquire_free := fcfsAcquire_free
  acquire_owned := fcfsAcquire_owned
  release_idle := fcfsRelease_idle
  release_wake := fcfsRelease_wake
  waiter_mem := fun _ _ _ => List.mem_cons_self

theorem forkOnSchedule_blockedDone {s : Sim n} (hqueued : s.Queued) (hdone : s.BlockedDone) :
    (__forkOnSchedule s).BlockedDone := by
  intro p hcurrent hwait
  rw [forkOnSchedule_procs hqueued] at hwait ⊢
  exact hdone p hcurrent hwait

/-- The completed callback agrees where no process is blocked too early, unless the
callback crashes. -/
theorem Blind.schedule_completed {sched : Scheduler n} (hblind : Blind sched) {s : Sim n}
    (hqueued : s.Queued) (hdone : s.BlockedDone)
    (hok : sched.schedule (__forkOnSchedule s) ≠ .error .nullPointer) :
    sched.completed.schedule (__forkOnSchedule s) = sched.schedule (__forkOnSchedule s) := by
  have hforked := forkOnSchedule_queued hqueued
  have hdone := forkOnSchedule_blockedDone hqueued hdone
  rcases hblind.chosen (__forkOnSchedule s) (fun q hq => (hforked.ready q hq).2) hdone with
    herror | ⟨next, queue, hpicks⟩
  · exact absurd herror hok
  · simp only [Scheduler.completed, hpicks.schedule, if_pos hdone]

theorem Blind.next_completed {sched : Scheduler n} (hblind : Blind sched) {c : Config n}
    (hwf : c.WellFormed) (hdone : c.BlockedDone)
    (hok : c.pc = .iterate → sched.schedule (__forkOnSchedule c.sim) ≠ .error .nullPointer) :
    sched.next c = sched.completed.next c := by
  apply next_congr hblind.acquire hblind.release
  intro hpc
  exact (hblind.schedule_completed hwf.queued (hdone hpc) (hok hpc)).symm

theorem Blind.next_eq {sched : Scheduler n} (hblind : Blind sched) {c : Config n}
    (hwf : c.WellFormed) (hdone : c.BlockedDone) :
    sched.next c = sched.completed.next c ∨ sched.next c = ⟨.failed .nullPointer, c.sim⟩ := by
  by_cases hok : c.pc = .iterate → sched.schedule (__forkOnSchedule c.sim) ≠ .error .nullPointer
  · exact .inl (hblind.next_completed hwf hdone hok)
  · right
    obtain ⟨pc, s⟩ := c
    simp only [ne_eq, not_forall, not_not] at hok
    obtain ⟨rfl, herror⟩ := hok
    simp only [Scheduler.next, iteration, herror]
    rfl

/-- A lawful scheduler never runs a process that is on a queue. -/
theorem next_not_currentLinked {policy : Policy n} {sched : Scheduler n}
    (hlaw : Lawful sched policy) {c : Config n} (hwf : c.WellFormed)
    (hpc : c.pc ≠ .failed .currentLinked) : (sched.next c).pc ≠ .failed .currentLinked := by
  intro hfail
  rcases next_fault hlaw hwf hfail with hstopped | hexit
  · exact hpc hstopped
  · exact hexit

/-! ## Runs in which no process blocks too early -/

section Runs

variable {sched : Scheduler n} {script : Script n} {c : Config n}

theorem Blind.reachable (hblind : Blind sched)
    (hreach : ((sched.machine script).restrict Config.BlockedDone).Reachable c) :
    c.WellFormed ∧ c.pc ≠ .failed .currentLinked := by
  apply hreach.invariant fun c => c.WellFormed ∧ c.pc ≠ .failed .currentLinked
  · exact ⟨start_wellFormed script, fun hpc => by cases hpc⟩
  · rintro state - next - ⟨hwf, hpc⟩ ⟨hdone, rfl⟩
    rcases hblind.next_eq hwf hdone with heq | heq
    · rw [heq]
      exact ⟨(step_effect hblind.completed_lawful hwf).wellFormed hwf,
        next_not_currentLinked hblind.completed_lawful hwf hpc⟩
    · rw [heq]
      exact ⟨⟨hwf.queued, hwf.owned, trivial⟩, fun hfail => by cases hfail⟩

/-- A blocked process is left out exactly if it has no time left. -/
theorem Blind.leavesOut_iff (hblind : Blind sched) (hwf : c.WellFormed) (hpc : c.pc = .iterate)
    {p : Fin n} (hcurrent : c.sim.current = some p) (hwait : (c.sim.procs p).status = .wait) :
    sched.LeavesOut (__forkOnSchedule c.sim) p ↔
      (c.sim.procs p).lifespan ≤ (c.sim.procs p).age := by
  obtain ⟨pc, s⟩ := c
  obtain rfl : pc = .iterate := hpc
  have hforked := forkOnSchedule_queued hwf.queued
  have hshaped := forkOnSchedule_shaped hwf.queued hwf.shaped
  have hprocs := forkOnSchedule_procs hwf.queued
  constructor
  · intro hleaves
    by_contra hage
    refine hblind.keeps (__forkOnSchedule s) p hcurrent ?_ hleaves
    rw [hprocs]
    exact not_le.mp hage
  · intro hage next after hschedule
    have hdone : s.BlockedDone := by
      intro q hq _
      obtain rfl : q = p := Option.some.inj (hq.symm.trans hcurrent)
      exact hage
    have hout : p ∉ (__forkOnSchedule s).candidates := by
      intro hcandidate
      rcases candidate_status hforked hshaped hcandidate with ⟨-, hready⟩ | ⟨-, hrun⟩
      · rw [hprocs, hwait] at hready
        cases hready
      · rw [hprocs, hwait] at hrun
        cases hrun
    rcases hblind.chosen _ (fun q hq => (hforked.ready q hq).2)
      (forkOnSchedule_blockedDone hwf.queued hdone) with herror | ⟨next', queue, hpicks⟩
    · rw [herror] at hschedule
      cases hschedule
    · rw [hpicks.schedule] at hschedule
      cases hschedule
      have hmem := hpicks.chosen.perm.mem_iff.not.mpr hout
      simp only [List.mem_append, Option.mem_toList, not_or] at hmem
      exact hmem

end Runs

/-- **A blocked process is not rescheduled, as long as it has no time left.** In every run
whose blocked processes have reached their lifespan, no process is on two queues and the
assertion on the current process does not fail; and in the first state that breaks the
condition, the callback runs or queues the blocked process. -/
theorem blocked_not_rescheduled {sched : Scheduler n} (hsched : sched ∈ blindSchedulers n)
    {script : Script n} {c : Config n}
    (hreach : ((sched.machine script).restrict Config.BlockedDone).Reachable c) :
    c.sim.queues.Nodup ∧ c.pc ≠ .failed .currentLinked ∧
    (c.pc = .iterate → ∀ p, c.sim.current = some p → (c.sim.procs p).status = .wait →
      (∃ r, p ∈ (c.sim.resources r).waitqueue) ∧
      (sched.LeavesOut (__forkOnSchedule c.sim) p ↔
        (c.sim.procs p).lifespan ≤ (c.sim.procs p).age)) := by
  have hblind := blindSchedulers_blind hsched
  obtain ⟨hwf, hpc⟩ := hblind.reachable hreach
  refine ⟨hwf.queued.queues_nodup, hpc, fun hiterate p hcurrent hwait => ⟨?_, ?_⟩⟩
  · have hshaped := hwf.shaped
    rw [hiterate] at hshaped
    refine (hshaped p hcurrent).resolve_left fun hrun => ?_
    rw [hwait] at hrun
    cases hrun
  · exact hblind.leavesOut_iff hwf hiterate hcurrent hwait

/-- The process of `selfish` blocks on itself before its end, and the callback of
`rr_scheduler` does not leave it out. -/
theorem blocked_not_rescheduled_selfish :
    ¬ rrScheduler.LeavesOut (__forkOnSchedule (rrScheduler.next^[8] selfish.start).sim) 0 := by
  have hguard : ∀ i < 8, (rrScheduler.next^[i] selfish.start).BlockedDone := by decide +kernel
  have hiff := ((blocked_not_rescheduled (by simp [blindSchedulers])
    (Machine.restrict_iterate hguard)).2.2 (by decide +kernel) 0 (by decide +kernel)
    (by decide +kernel)).2
  exact fun hleaves => absurd (hiff.mp hleaves) (by decide +kernel)

/-- The process of `selfish` is rescheduled while it waits, and the assertion on the current
process fails. -/
def Rescheduled (sched : Scheduler 1) : Prop :=
  let c := sched.next^[8] selfish.start
  c.pc = .iterate ∧ c.sim.current = some 0 ∧ (c.sim.procs 0).status = .wait ∧
    (c.sim.resources 0).waitqueue = [0] ∧
    ¬ sched.LeavesOut (__forkOnSchedule c.sim) 0 ∧
    (sched.next^[9] selfish.start).pc = .failed .currentLinked

theorem blocked_rescheduled :
    Rescheduled sjfScheduler ∧ Rescheduled srtfScheduler ∧ Rescheduled rrScheduler := by
  have hmem : ∀ sched ∈ [sjfScheduler, srtfScheduler, rrScheduler], Rescheduled sched := by
    intro sched hsched
    have hblind := blindSchedulers_blind hsched
    simp only [List.mem_cons, List.not_mem_nil, or_false] at hsched
    rcases hsched with rfl | rfl | rfl
    all_goals
      refine ⟨by decide +kernel, by decide +kernel, by decide +kernel, by decide +kernel,
        hblind.keeps _ 0 (by decide +kernel) (by decide +kernel), by decide +kernel⟩
  simpa using hmem

end OperatingSystem.Sched
