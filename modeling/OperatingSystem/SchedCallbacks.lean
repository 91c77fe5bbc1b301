import OperatingSystem.Outcomes
import OperatingSystem.SchedMemory
import OperatingSystem.SchedBlind

/-!
# The callbacks on pointers do what the callbacks on lists do
-/

namespace OperatingSystem.Sched.Pointers

variable {n : Nat}

/-- A computation on the memory does what one on the state does. -/
def Agrees {α β : Type} (Rel : α → β → Prop) : Except Stop α → Except Fault β → Prop :=
  Simulates (fun stop fault => stop = .fault fault) Rel

section Agrees

variable {α β : Type} {Rel : α → β → Prop} {first : Except Stop α}

theorem Agrees.of_ok {value : β} (hagrees : Agrees Rel first (.ok value)) :
    ∃ result, first = .ok result ∧ Rel result value := by
  cases first with
  | ok result => exact ⟨result, rfl, hagrees⟩
  | error stop => exact hagrees.elim

theorem Agrees.of_error {fault : Fault} (hagrees : Agrees Rel first (.error fault)) :
    first = .error (.fault fault) := by
  cases first with
  | ok result => exact hagrees.elim
  | error stop => exact congrArg Except.error hagrees

end Agrees

variable {m : Memory n} {s : Sim n} {p : Fin n}

theorem setStatus_setPrio (s : Sim n) (p q : Fin n) (status : ProcessStatus) (prio : Nat) :
    (s.setStatus p status).setPrio q prio = (s.setPrio q prio).setStatus p status := by
  simp only [Sim.setStatus, Sim.setPrio, Sim.setProcess, Sim.mk.injEq, and_self, and_true]
  funext q'
  by_cases hq : q' = q
  · subst hq
    by_cases hp : q' = p
    · subst hp
      simp
    · simp [hp]
  · by_cases hp : q' = p
    · subst hp
      simp [hq]
    · simp [hq, hp]

/-! ## Acquiring -/

section Acquire

variable (hshows : Shows m s) (hcurrent : s.current = some p) (hlive : s.Live p)
  (hfree : ¬ s.linked p) (r : Fin NR_RESOURCES)
include hshows hcurrent hlive hfree

theorem block_shows :
    ∃ after, block m r = .ok (false, after) ∧
      Shows after (s.setWaitqueue r ((s.resources r).waitqueue ++ [p])) := by
  obtain ⟨after, hrun, hafter⟩ := hshows.listAddTail hlive hfree (.waitqueue r)
  refine ⟨after, ?_, hafter⟩
  simp only [block, hshows.current, hcurrent, deref, ok_bind, hrun]

/-- The running process is made to wait and blocked. -/
theorem wait_block_shows :
    ∃ waiting after, m.setStatus p .wait = .ok waiting ∧ block waiting r = .ok (false, after) ∧
      Shows after (s.block p r) := by
  obtain ⟨waiting, hwait, hwaiting⟩ :=
    hshows.setStatus hlive (show ProcessStatus.wait ≠ .exit by simp)
  have hself : (s.setStatus p .wait).Live p := by simp [Sim.Live, Sim.setStatus, Sim.setProcess]
  obtain ⟨after, hblock, hafter⟩ := block_shows hwaiting hcurrent hself hfree r
  exact ⟨waiting, after, hwait, hblock, hafter⟩

theorem fcfsAcquire_shows :
    ∃ after, fcfsAcquire m r = .ok ((Sched.fcfsAcquire s p r).1, after) ∧
      Shows after (Sched.fcfsAcquire s p r).2 := by
  rw [fcfsAcquire, hshows.owner, Sched.fcfsAcquire]
  cases howner : (s.resources r).owner with
  | none =>
      rw [hshows.current, hcurrent]
      exact ⟨_, rfl, hshows.setOwner r (some p)⟩
  | some q =>
      obtain ⟨waiting, after, hwait, hblock, hafter⟩ :=
        wait_block_shows hshows hcurrent hlive hfree r
      refine ⟨after, ?_, hafter⟩
      simp only [hshows.current, hcurrent, deref, ok_bind, hwait, hblock]

theorem pcpAcquire_shows :
    ∃ after, pcpAcquire m r = .ok ((Sched.pcpAcquire s p r).1, after) ∧
      Shows after (Sched.pcpAcquire s p r).2 := by
  rw [pcpAcquire, hshows.owner, Sched.pcpAcquire]
  cases howner : (s.resources r).owner with
  | none =>
      rw [hshows.current, hcurrent]
      obtain ⟨after, hprio, hafter⟩ := (hshows.setOwner r (some p)).setPrio hlive MAX_PRIO
      have hself : (m.setOwner r (some p)).current = some p := hshows.current.trans hcurrent
      refine ⟨after, ?_, hafter⟩
      simp only [hself, deref, ok_bind, hprio]
  | some q =>
      obtain ⟨waiting, after, hwait, hblock, hafter⟩ :=
        wait_block_shows hshows hcurrent hlive hfree r
      refine ⟨after, ?_, hafter⟩
      simp only [hshows.current, hcurrent, deref, ok_bind, hwait, hblock]

/-- The owner inherits the priority before the running process waits, or after. -/
theorem pipAcquire_shows (howners : ∀ q, (s.resources r).owner = some q → s.Live q) :
    ∃ after, pipAcquire m r = .ok ((Sched.pipAcquire s p r).1, after) ∧
      Shows after (Sched.pipAcquire s p r).2 := by
  rw [pipAcquire, hshows.owner, Sched.pipAcquire]
  cases howner : (s.resources r).owner with
  | none =>
      rw [hshows.current, hcurrent]
      exact ⟨_, rfl, hshows.setOwner r (some p)⟩
  | some q =>
      obtain ⟨waiting, hwait, hwaiting⟩ :=
        hshows.setStatus hlive (show ProcessStatus.wait ≠ .exit by simp)
      have hprio : ∀ q, ((s.setStatus p .wait).procs q).prio = (s.procs q).prio := fun q => by
        rw [setStatus_procs]
      have hself : (s.setStatus p .wait).Live p := by simp [Sim.Live, setStatus_procs]
      have howning : (s.setStatus p .wait).Live q := by
        rw [Sim.Live, setStatus_procs]
        by_cases hq : q = p
        · simp [hq]
        · simpa [hq, Sim.Live] using howners q howner
      simp only [hshows.current, hcurrent, deref, ok_bind, hwait, hwaiting.get howning,
        hwaiting.get hself, Process.fields, hprio]
      by_cases hlt : (s.procs q).prio < (s.procs p).prio
      · obtain ⟨raised, hraise, hraised⟩ := hwaiting.setPrio howning (s.procs p).prio
        have hcommute : (s.setStatus p .wait).setPrio q (s.procs p).prio =
            (s.setPrio q (s.procs p).prio).setStatus p .wait :=
          setStatus_setPrio s p q .wait (s.procs p).prio
        have hstays : ((s.setStatus p .wait).setPrio q (s.procs p).prio).Live p := by
          rw [hcommute]
          simp [Sim.Live, setStatus_procs]
        obtain ⟨after, hblock, hafter⟩ := block_shows hraised hcurrent hstays hfree r
        refine ⟨after, ?_, ?_⟩
        · simp only [if_pos hlt, hraise, ok_bind, hblock]
        · rw [if_pos hlt]
          rw [hcommute] at hafter
          exact hafter
      · obtain ⟨after, hblock, hafter⟩ := block_shows hwaiting hcurrent hself hfree r
        refine ⟨after, ?_, ?_⟩
        · simp only [if_neg hlt, hblock]
        · rw [if_neg hlt]
          exact hafter

end Acquire

/-! ## Releasing -/

section Release

variable (hshows : Shows m s) {r : Fin NR_RESOURCES}
include hshows

theorem wake_agrees {waiter : Fin n} (hmem : waiter ∈ (s.resources r).waitqueue) :
    Agrees Shows (wake m waiter) (s.wake r waiter) := by
  have hqueue : waiter ∈ s.lists (.waitqueue r) := hmem
  rw [wake, hshows.get (hshows.live_of_mem hqueue), ok_bind, Sim.wake]
  by_cases hstatus : (s.procs waiter).status = .wait
  · obtain ⟨taken, htake, htaken⟩ := hshows.listDelInit hqueue
    have hlive : (s.setList ((s.lists (.waitqueue r)).erase waiter) (.waitqueue r)).Live waiter :=
      hshows.live_of_mem hqueue
    obtain ⟨readied, hready, hreadied⟩ :=
      htaken.setStatus hlive (show ProcessStatus.ready ≠ .exit by simp)
    obtain ⟨after, hadd, hafter⟩ := hreadied.listAddTail (by simp [Sim.Live, setStatus_procs])
      (hshows.not_linked_erase hqueue) .readyqueue
    have hfields : (s.procs waiter).fields.status = .wait := hstatus
    rw [if_pos hfields, if_pos hstatus, htake, ok_bind, hready, ok_bind, hadd]
    exact hafter
  · have hfields : (s.procs waiter).fields.status ≠ .wait := hstatus
    rw [if_neg hfields, if_neg hstatus]
    exact rfl

/-- The first process of a queue that is not empty. -/
theorem containerOf_first {q : Queue} {first : Fin n} {rest : List (Fin n)}
    (hlist : s.lists q = first :: rest) :
    containerOf (m.queues.next (.inl q)) = .ok first := by
  rw [hshows.queues.next_head, hlist]
  rfl

theorem fcfsRelease_agrees (hcurrent : s.current = some p) :
    Agrees Shows (fcfsRelease m r) (Sched.fcfsRelease s p r) := by
  rw [fcfsRelease, Sched.fcfsRelease, hshows.owner, hshows.current, hcurrent]
  by_cases howner : (s.resources r).owner = some p
  · have hfreed := hshows.setOwner r none
    rw [if_pos howner, if_pos howner]
    simp only [hfreed.listEmpty]
    cases hqueue : (s.setOwner r none).lists (.waitqueue r) with
    | nil =>
        have hwait : ((s.setOwner r none).resources r).waitqueue = [] := hqueue
        simp only [List.isEmpty_nil, if_true, hwait]
        exact hfreed
    | cons first rest =>
        have hwait : ((s.setOwner r none).resources r).waitqueue = first :: rest := hqueue
        simp only [List.isEmpty_cons, Bool.false_eq_true, if_false, hwait,
          containerOf_first hfreed hqueue, ok_bind]
        exact wake_agrees hfreed (by simp [hwait])
  · rw [if_neg howner, if_neg howner]
    exact rfl

/-- The loops that keep the best process so far. -/
theorem foldlM_better {isBetter : Fields → Fields → Bool} {R : Fin n → Fin n → Prop}
    [DecidableRel R]
    (hbetter : ∀ p best, isBetter (s.procs p).fields (s.procs best).fields = decide (R p best))
    {first : Fin n} {queue : List (Fin n)} (hfirst : s.Live first)
    (hqueue : ∀ p ∈ queue, s.Live p) :
    queue.foldlM (better m isBetter) first =
      .ok (queue.foldl (fun best p => if R p best then p else best) first) := by
  induction queue generalizing first with
  | nil => rfl
  | cons p queue ih =>
      have hp : s.Live p := hqueue p List.mem_cons_self
      simp only [List.foldlM_cons, List.foldl_cons, better, hshows.get hp, hshows.get hfirst,
        ok_bind, hbetter, decide_eq_true_eq]
      refine ih ?_ fun q hq => hqueue q (List.mem_cons_of_mem _ hq)
      split
      · exact hp
      · exact hfirst

theorem forEach_higher {q : Queue} {first : Fin n} (hfirst : s.Live first) :
    m.forEach q (better m higher) first = .ok (scanMax s.prio first (s.lists q)) := by
  rw [hshows.forEach]
  exact foldlM_better hshows (R := fun p best => s.prio best < s.prio p) (fun _ _ => rfl) hfirst
    fun p hp => hshows.live_of_mem hp

theorem forEach_shorter {q : Queue} {first : Fin n} (hfirst : s.Live first) :
    m.forEach q (better m shorter) first =
      .ok (scanMin (fun p => (s.procs p).lifespan) first (s.lists q)) := by
  rw [hshows.forEach]
  exact foldlM_better hshows (R := fun p best => (s.procs p).lifespan < (s.procs best).lifespan)
    (fun _ _ => rfl) hfirst fun p hp => hshows.live_of_mem hp

theorem prioRelease_agrees (hcurrent : s.current = some p) (hlive : s.Live p) :
    Agrees Shows (prioRelease m r) (Sched.prioRelease s p r) := by
  rw [prioRelease, Sched.prioRelease, hshows.owner, hshows.current, hcurrent]
  by_cases howner : (s.resources r).owner = some p
  · rw [if_pos howner, if_pos howner, howner]
    obtain ⟨restored, hrestore, hrestored⟩ := hshows.setPrio hlive (s.procs p).prioOrig
    have hfreed := hrestored.setOwner r none
    simp only [deref, ok_bind, hshows.get hlive]
    simp only [Process.fields, hrestore, ok_bind, hfreed.listEmpty]
    cases hqueue : ((s.setPrio p (s.procs p).prioOrig).setOwner r none).lists (.waitqueue r) with
    | nil =>
        have hwait : (((s.setPrio p (s.procs p).prioOrig).setOwner r none).resources r).waitqueue =
          [] := hqueue
        simp only [List.isEmpty_nil, if_true, hwait]
        exact hfreed
    | cons first rest =>
        have hwait : (((s.setPrio p (s.procs p).prioOrig).setOwner r none).resources r).waitqueue =
          first :: rest := hqueue
        have hmem : first ∈
            ((s.setPrio p (s.procs p).prioOrig).setOwner r none).lists (.waitqueue r) := by
          rw [hqueue]
          exact List.mem_cons_self
        have hfirst := hfreed.live_of_mem hmem
        simp only [List.isEmpty_cons, Bool.false_eq_true, if_false, hwait,
          containerOf_first hfreed hqueue, ok_bind, forEach_higher hfreed hfirst, hqueue]
        refine wake_agrees hfreed ?_
        rw [hwait]
        exact scanMax_mem_of_mem _ List.mem_cons_self
  · rw [if_neg howner, if_neg howner]
    exact rfl

end Release

/-! ## Scheduling -/

/-- The outcomes of two `schedule` callbacks. -/
def SameChoice (choice : Option (Fin n) × Memory n) (choice' : Option (Fin n) × Sim n) : Prop :=
  choice.1 = choice'.1 ∧ Shows choice.2 choice'.2

section Schedule

variable (hshows : Shows m s)
include hshows

theorem unfinished_shows (hlive : s.Live p) :
    unfinished m p = .ok (decide ((s.procs p).age < (s.procs p).lifespan)) := by
  rw [unfinished, hshows.get hlive, ok_bind]
  rfl

theorem running_shows (hlive : ∀ p, s.current = some p → s.Live p) :
    running m = .ok s.running := by
  rw [running, hshows.current, Sim.running]
  cases hcurrent : s.current with
  | none => rfl
  | some p =>
      simp only [hshows.get (hlive p hcurrent), ok_bind, Process.fields, Option.filter_some]
      by_cases hstatus : (s.procs p).status = .wait <;> simp [hstatus]

/-- A process is taken off the ready queue. -/
theorem take_shows (hmem : p ∈ s.readyqueue) :
    ∃ after, m.listDelInit (.inr p) = .ok after ∧
      Shows after { s with readyqueue := s.readyqueue.erase p } :=
  hshows.listDelInit (show p ∈ s.lists .readyqueue from hmem)

theorem ready_empty : m.queues.listEmpty (.inl .readyqueue) = s.readyqueue.isEmpty :=
  hshows.listEmpty .readyqueue

theorem pickNext_agrees : Agrees SameChoice (pickNext m) (.ok (Sched.pickNext s)) := by
  rw [pickNext, ready_empty hshows, Sched.pickNext]
  cases hready : s.readyqueue with
  | nil => exact ⟨rfl, hshows⟩
  | cons next rest =>
      obtain ⟨after, htake, hafter⟩ := take_shows hshows (p := next) (by simp [hready])
      rw [hready, List.erase_cons_head] at hafter
      simp only [List.isEmpty_cons, Bool.false_eq_true, if_false,
        containerOf_first hshows (q := .readyqueue) hready, ok_bind, htake]
      exact ⟨rfl, hafter⟩

theorem fifoSchedule_agrees (hlive : ∀ p, s.current = some p → s.Live p) :
    Agrees SameChoice (fifoSchedule m) (Sched.fifoSchedule s) := by
  rw [fifoSchedule, running_shows hshows hlive, ok_bind, Sched.fifoSchedule]
  cases hrunning : s.running with
  | none => exact pickNext_agrees hshows
  | some p =>
      have hp := hlive p (running_eq_some.mp hrunning).1
      simp only [unfinished_shows hshows hp, ok_bind, decide_eq_true_eq]
      split
      · exact ⟨rfl, hshows⟩
      · exact pickNext_agrees hshows

/-! ### Scanning the ready queue -/

section Scan

variable {isBetter : Fields → Fields → Bool}
  {scan : (Fin n → Process) → Fin n → List (Fin n) → Fin n}
  (hscan : ∀ {m : Memory n} {s : Sim n} {first : Fin n}, Shows m s → s.Live first →
    m.forEach .readyqueue (better m isBetter) first = .ok (scan s.procs first s.readyqueue))
  (hmem : ∀ procs {first list}, first ∈ list → scan procs first list ∈ list)
include hscan hmem

theorem pickBest_agrees {first : Fin n} {rest : List (Fin n)}
    (hready : s.readyqueue = first :: rest) :
    let best := scan s.procs first s.readyqueue
    Agrees SameChoice (pickBest m isBetter)
      (.ok (some best, { s with readyqueue := s.readyqueue.erase best })) := by
  intro best
  have hfirst : first ∈ s.readyqueue := by simp [hready]
  obtain ⟨after, htake, hafter⟩ := take_shows hshows (hmem s.procs hfirst)
  rw [pickBest, ready_empty hshows]
  simp only [hready, List.isEmpty_cons, Bool.false_eq_true, if_false,
    containerOf_first hshows (q := .readyqueue) hready, ok_bind,
    hscan hshows (hshows.linked first (.inr (.inl hfirst)))]
  rw [← hready, htake]
  exact ⟨rfl, hafter⟩

theorem pickYoung_agrees {first : Fin n} (hfirst : first ∈ s.readyqueue) :
    let best := scan s.procs first s.readyqueue
    Agrees SameChoice (pickYoung m isBetter first)
      (if (s.procs best).age ≤ (s.procs best).lifespan then
        .ok (some best, { s with readyqueue := s.readyqueue.erase best })
      else .ok (none, s)) := by
  intro best
  have hbest : best ∈ s.readyqueue := hmem s.procs hfirst
  have hlive := hshows.linked best (.inr (.inl hbest))
  obtain ⟨after, htake, hafter⟩ := take_shows hshows hbest
  rw [pickYoung, hscan hshows (hshows.linked first (.inr (.inl hfirst))), ok_bind,
    hshows.get hlive, ok_bind]
  by_cases hage : (s.procs best).age ≤ (s.procs best).lifespan
  · have hfields : (s.procs best).fields.age ≤ (s.procs best).fields.lifespan := hage
    rw [if_pos hfields, if_pos hage, htake]
    exact ⟨rfl, hafter⟩
  · have hfields : ¬ (s.procs best).fields.age ≤ (s.procs best).fields.lifespan := hage
    rw [if_neg hfields, if_neg hage]
    exact ⟨rfl, hshows⟩

theorem pickAgain_agrees (hlive : s.Live p) (requeue : Memory n → Fin n → Except Stop (Memory n))
    (queue : List (Fin n)) (hrequeue : (s.procs p).age < (s.procs p).lifespan →
      ∃ after, requeue m p = .ok after ∧ Shows after { s with readyqueue := queue })
    {first : Fin n} {rest : List (Fin n)} (hready : s.readyqueue = first :: rest)
    (hfirst : first ∈ queue) :
    let queue := if (s.procs p).age < (s.procs p).lifespan then queue else s.readyqueue
    let best := scan s.procs first queue
    Agrees SameChoice (pickAgain m isBetter p requeue)
      (if (s.procs best).age ≤ (s.procs best).lifespan then
        .ok (some best, { s with readyqueue := queue.erase best })
      else .ok (none, { s with readyqueue := queue })) := by
  rw [pickAgain, ready_empty hshows]
  simp only [hready, List.isEmpty_cons, Bool.false_eq_true, if_false,
    containerOf_first hshows (q := .readyqueue) hready, ok_bind, unfinished_shows hshows hlive,
    decide_eq_true_eq]
  by_cases hage : (s.procs p).age < (s.procs p).lifespan
  · obtain ⟨queued, hqueue, hqueued⟩ := hrequeue hage
    simp only [if_pos hage, hqueue, ok_bind]
    exact pickYoung_agrees hqueued hscan hmem hfirst
  · simp only [if_neg hage]
    rw [← hready]
    exact pickYoung_agrees hshows hscan hmem (by simp [hready])

end Scan

theorem pickBest_empty (isBetter : Fields → Fields → Bool) (hready : s.readyqueue = []) :
    pickBest m isBetter = .ok (none, m) := by
  rw [pickBest, ready_empty hshows, hready]
  rfl

theorem pickAgain_empty (isBetter : Fields → Fields → Bool) (hlive : s.Live p)
    (requeue : Memory n → Fin n → Except Stop (Memory n)) (hready : s.readyqueue = []) :
    pickAgain m isBetter p requeue =
      if (s.procs p).age < (s.procs p).lifespan then .ok (some p, m) else .ok (none, m) := by
  rw [pickAgain, ready_empty hshows, hready]
  simp only [List.isEmpty_nil, if_true, unfinished_shows hshows hlive, ok_bind, decide_eq_true_eq]

theorem prioSchedule_agrees (hlive : ∀ p, s.current = some p → s.Live p)
    (hfree : ∀ p, s.running = some p → ¬ s.linked p) :
    Agrees SameChoice (prioSchedule m) (Sched.prioSchedule s) := by
  have hscan : ∀ {m : Memory n} {s : Sim n} {first : Fin n}, Shows m s → s.Live first →
      m.forEach .readyqueue (better m higher) first =
        .ok (scanMax (fun p => (s.procs p).prio) first s.readyqueue) :=
    fun hshows hfirst => forEach_higher hshows hfirst
  have hmem : ∀ (procs : Fin n → Process) {first list}, first ∈ list →
      scanMax (fun p => (procs p).prio) first list ∈ list :=
    fun _ _ _ hfirst => scanMax_mem_of_mem _ hfirst
  rw [prioSchedule, running_shows hshows hlive, ok_bind, Sched.prioSchedule]
  cases hrunning : s.running with
  | none =>
      cases hready : s.readyqueue with
      | nil =>
          simp only [pickBest_empty hshows higher hready]
          exact ⟨rfl, hshows⟩
      | cons first rest =>
          have hbest := pickBest_agrees hshows hscan hmem hready
          rw [hready] at hbest
          exact hbest
  | some p =>
      have hp := hlive p (running_eq_some.mp hrunning).1
      cases hready : s.readyqueue with
      | nil =>
          simp only [pickAgain_empty hshows higher hp _ hready]
          split
          · exact ⟨rfl, hshows⟩
          · exact ⟨rfl, hshows⟩
      | cons first rest =>
          have hagain := pickAgain_agrees hshows hscan hmem hp
            (fun m current => m.listAddTail current .readyqueue) (s.readyqueue ++ [p])
            (fun _ => hshows.listAddTail hp (hfree p hrunning) .readyqueue) hready
            (by simp [hready])
          rw [hready] at hagain
          exact hagain

/-! ### Schedulers that do not test whether `current` waits -/

section Unfinished

variable (hlive : ∀ p, s.current = some p → s.Live p)
  (hfree : ∀ p, s.current = some p → (s.procs p).age < (s.procs p).lifespan → ¬ s.linked p)
include hlive hfree

theorem srtfSchedule_agrees : Agrees SameChoice (srtfSchedule m) (Sched.srtfSchedule s) := by
  have hscan : ∀ {m : Memory n} {s : Sim n} {first : Fin n}, Shows m s → s.Live first →
      m.forEach .readyqueue (better m shorter) first =
        .ok (scanMin (fun p => (s.procs p).lifespan) first s.readyqueue) :=
    fun hshows hfirst => forEach_shorter hshows hfirst
  have hmem : ∀ (procs : Fin n → Process) {first list}, first ∈ list →
      scanMin (fun p => (procs p).lifespan) first list ∈ list :=
    fun _ _ _ hfirst => scanMin_mem_of_mem _ hfirst
  rw [srtfSchedule, hshows.current, Sched.srtfSchedule]
  cases hcurrent : s.current with
  | none =>
      cases hready : s.readyqueue with
      | nil =>
          simp only [pickBest_empty hshows shorter hready]
          exact ⟨rfl, hshows⟩
      | cons first rest =>
          have hbest := pickBest_agrees hshows hscan hmem hready
          rw [hcurrent, hready] at hbest
          exact hbest
  | some p =>
      have hp := hlive p hcurrent
      cases hready : s.readyqueue with
      | nil =>
          simp only [pickAgain_empty hshows shorter hp _ hready]
          split
          · exact ⟨rfl, hshows⟩
          · exact ⟨rfl, hshows⟩
      | cons first rest =>
          have hagain := pickAgain_agrees hshows hscan hmem hp
            (fun m current => m.listAdd current .readyqueue) (p :: s.readyqueue)
            (fun hage => hshows.listAdd hp (hfree p hcurrent hage) .readyqueue) hready
            (by simp [hready])
          rw [hcurrent, hready] at hagain
          exact hagain

theorem rrSchedule_agrees : Agrees SameChoice (rrSchedule m) (Sched.rrSchedule s) := by
  rw [rrSchedule, Sched.rrSchedule, ready_empty hshows, hshows.current]
  cases hready : s.readyqueue with
  | nil =>
      simp only [List.isEmpty_nil, if_true]
      cases hcurrent : s.current with
      | none => exact rfl
      | some p =>
          simp only [deref, ok_bind, unfinished_shows hshows (hlive p hcurrent), decide_eq_true_eq]
          split
          · exact ⟨rfl, hshows⟩
          · exact ⟨rfl, hshows⟩
  | cons first rest =>
      have hnode : m.queues.next (.inl .readyqueue) = .inr first := by
        rw [hshows.queues.next_head]
        exact congrArg (Links.first Queue.readyqueue) hready
      -- the first process is taken off the queue that `current` may have joined
      have hpick : ∀ {queued : Memory n} {queue : List (Fin n)},
          Shows queued { s with readyqueue := queue } → first ∈ queue →
          Agrees SameChoice (do
              let m ← queued.listDelInit (.inr first)
              let rrProc ← containerOf (.inr first : QueueNode n)
              .ok (some rrProc, m))
            (.ok (some first, { s with readyqueue := queue.erase first })) := by
        intro queued queue hqueued hmem
        obtain ⟨after, htake, hafter⟩ := take_shows hqueued hmem
        rw [htake]
        exact ⟨rfl, hafter⟩
      simp only [List.isEmpty_cons, Bool.false_eq_true, if_false, hnode]
      cases hcurrent : s.current with
      | none =>
          have hpicked := hpick hshows (by simp [hready])
          rw [hcurrent, hready] at hpicked
          exact hpicked
      | some p =>
          have hp := hlive p hcurrent
          simp only [unfinished_shows hshows hp, ok_bind, decide_eq_true_eq]
          by_cases hage : (s.procs p).age < (s.procs p).lifespan
          · obtain ⟨queued, hadd, hqueued⟩ :=
              hshows.listAddTail hp (hfree p hcurrent hage) .readyqueue
            have hlist : s.lists .readyqueue = first :: rest := hready
            rw [hlist] at hqueued
            have hpicked := hpick hqueued (by simp)
            rw [hcurrent] at hpicked
            simp only [if_pos hage, hadd, ok_bind]
            exact hpicked
          · have hpicked := hpick hshows (by simp [hready])
            rw [hcurrent, hready] at hpicked
            simp only [if_neg hage]
            exact hpicked

end Unfinished

/-- The loop of `sjf_schedule`. -/
theorem foldlM_sjfBody {queue : List (Fin n)} (hqueue : ∀ p ∈ queue, s.Live p)
    (found : Option (Fin n) × Nat) :
    queue.foldlM (sjfBody m) found = .ok (queue.foldl (fun (sjfSmallest, lsChk) sjfProc =>
      if (s.procs sjfProc).lifespan < lsChk then (some sjfProc, (s.procs sjfProc).lifespan)
      else (sjfSmallest, lsChk)) found) := by
  induction queue generalizing found with
  | nil => rfl
  | cons p queue ih =>
      simp only [List.foldlM_cons, List.foldl_cons, sjfBody, hshows.get (hqueue p (by simp)),
        ok_bind, Process.fields]
      exact ih (fun q hq => hqueue q (List.mem_cons_of_mem _ hq)) _

theorem sjfPick_agrees (hunfinished : s.unfinished = none) :
    Agrees SameChoice (sjfPick m) (Sched.sjfSchedule s) := by
  have hloop := foldlM_sjfBody hshows
    (fun p hp => hshows.linked p (.inr (.inl hp)) : ∀ p ∈ s.readyqueue, s.Live p) (none, 100)
  have hforEach : m.forEach .readyqueue (sjfBody m) (none, 100) = _ :=
    (hshows.forEach .readyqueue _ _).trans hloop
  rw [sjfPick, ready_empty hshows, hforEach, ok_bind, Sched.sjfSchedule, hunfinished]
  cases hready : s.readyqueue with
  | nil => exact ⟨rfl, hshows⟩
  | cons first rest =>
      simp only [List.isEmpty_cons, Bool.false_eq_true, if_false]
      rw [← hready]
      cases hsmallest : sjfSmallest s 100 with
      | none =>
          rw [sjfSmallest] at hsmallest
          simp only [hsmallest, deref]
          exact rfl
      | some smallest =>
          obtain ⟨after, htake, hafter⟩ := take_shows hshows (sjfSmallest_mem hsmallest)
          rw [sjfSmallest] at hsmallest
          simp only [hsmallest, deref, ok_bind, htake]
          exact ⟨rfl, hafter⟩

theorem sjfSchedule_agrees (hlive : ∀ p, s.current = some p → s.Live p) :
    Agrees SameChoice (sjfSchedule m) (Sched.sjfSchedule s) := by
  rw [sjfSchedule, hshows.current]
  cases hcurrent : s.current with
  | none => exact sjfPick_agrees hshows (by simp [Sim.unfinished, hcurrent])
  | some p =>
      simp only [unfinished_shows hshows (hlive p hcurrent), ok_bind, decide_eq_true_eq]
      by_cases hage : (s.procs p).age < (s.procs p).lifespan
      · have hunfinished : s.unfinished = some p := by
          simp [Sim.unfinished, hcurrent, hage]
        rw [if_pos hage, Sched.sjfSchedule, hunfinished]
        exact ⟨rfl, hshows⟩
      · rw [if_neg hage]
        exact sjfPick_agrees hshows (by simpa [Sim.unfinished, hcurrent] using hage)

end Schedule

end OperatingSystem.Sched.Pointers
