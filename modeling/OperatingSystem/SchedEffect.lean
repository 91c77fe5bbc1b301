import OperatingSystem.SchedShape

/-!
# What one step does

The list of what one step of a lawful scheduler does to a well-formed state. The list
has no failing callback: between two iterations nothing fails, and an iteration fails
only when it retires a process that is still blocked, or holds or awaits a resource.
-/

namespace OperatingSystem.Sched

variable {n : Nat} {policy : Policy n}

/-- The status of the process that ran in the previous tick, after its update. -/
def Process.updatedStatus (process : Process) : ProcessStatus :=
  if process.age = process.lifespan then .exit
  else if process.status = .running then .ready
  else process.status

/-- The status of each process after a turn. -/
def Sim.turnedStatus (s : Sim n) (next : Option (Fin n)) (q : Fin n) : ProcessStatus :=
  if next = some q then .running
  else if s.current = some q then (s.procs q).updatedStatus
  else (s.procs q).status

/-- The iteration between `__fork_on_schedule` and the run of the next process. -/
structure Turn (policy : Policy n) (s : Sim n) (next : Option (Fin n)) (after : Sim n) : Prop where
  resources : after.resources = s.resources
  forkqueue : after.forkqueue = s.forkqueue
  ticks : after.ticks = s.ticks
  current : after.current = next
  frame : ∀ q, after.procs q = { s.procs q with status := (after.procs q).status }
  status : ∀ q, (after.procs q).status = s.turnedStatus next q
  chosen : Chosen policy s next after.readyqueue
  retired : ∀ prev, s.current = some prev → (s.procs prev).age = (s.procs prev).lifespan →
    (∀ r, prev ∉ (s.resources r).waitqueue) ∧ (s.procs prev).resourcesHolding = [] ∧
      (s.procs prev).resourcesToAcquire = []

/-! ## The states that the callbacks leave -/

namespace Sim

variable (s : Sim n) (p : Fin n) (prios : Fin n → Nat)

/-- A granted entry. -/
def granted (rs : ResourceSchedule) (pending : List ResourceSchedule) : Sim n :=
  ((s.setPrios prios).setOwner rs.resourceId (some p)).moveToHolding p rs pending

/-- A request that blocked, at the next tick. -/
def blocked (r : Fin NR_RESOURCES) : Sim n := ((s.setPrios prios).block p r).tick

/-- A release that wakes nobody. -/
def freed (r : Fin NR_RESOURCES) (holding : List ResourceSchedule) : Sim n :=
  ((s.setHolding p holding).setPrios prios).setOwner r none

section Granted

variable (rs : ResourceSchedule) (pending : List ResourceSchedule)

@[simp] theorem granted_forkqueue : (s.granted p prios rs pending).forkqueue = s.forkqueue := rfl

@[simp] theorem granted_readyqueue :
    (s.granted p prios rs pending).readyqueue = s.readyqueue := rfl

@[simp] theorem granted_current : (s.granted p prios rs pending).current = s.current := rfl

@[simp] theorem granted_self : (s.granted p prios rs pending).procs p =
    { s.procs p with
      prio := prios p
      resourcesToAcquire := pending
      resourcesHolding := (s.procs p).resourcesHolding ++ [rs] } := by
  simp [granted, moveToHolding, setProcess, setOwner, setPrios]

theorem granted_of_ne {q : Fin n} (hq : q ≠ p) : (s.granted p prios rs pending).procs q =
    { s.procs q with prio := prios q } := by
  simp [granted, moveToHolding, setProcess, setOwner, setPrios, hq]

theorem granted_owner (r : Fin NR_RESOURCES) :
    ((s.granted p prios rs pending).resources r).owner =
      if r = rs.resourceId then some p else (s.resources r).owner := by
  by_cases hr : r = rs.resourceId
  · subst hr
    simp [granted, moveToHolding, setProcess, setOwner, setPrios]
  · simp [granted, moveToHolding, setProcess, setOwner, setPrios, hr]

@[simp] theorem granted_waitqueue (r : Fin NR_RESOURCES) :
    ((s.granted p prios rs pending).resources r).waitqueue = (s.resources r).waitqueue := by
  by_cases hr : r = rs.resourceId
  · subst hr
    simp [granted, moveToHolding, setProcess, setOwner, setPrios]
  · simp [granted, moveToHolding, setProcess, setOwner, setPrios, hr]

end Granted

section Blocked

variable (r : Fin NR_RESOURCES)

@[simp] theorem blocked_forkqueue : (s.blocked p prios r).forkqueue = s.forkqueue := rfl

@[simp] theorem blocked_readyqueue : (s.blocked p prios r).readyqueue = s.readyqueue := rfl

@[simp] theorem blocked_current : (s.blocked p prios r).current = s.current := rfl

@[simp] theorem blocked_self : (s.blocked p prios r).procs p =
    { s.procs p with prio := prios p, status := .wait } := by
  simp [blocked, block, tick, setStatus, setProcess, setWaitqueue, setPrios]

theorem blocked_of_ne {q : Fin n} (hq : q ≠ p) :
    (s.blocked p prios r).procs q = { s.procs q with prio := prios q } := by
  simp [blocked, block, tick, setStatus, setProcess, setWaitqueue, setPrios, hq]

@[simp] theorem blocked_owner (r' : Fin NR_RESOURCES) :
    ((s.blocked p prios r).resources r').owner = (s.resources r').owner := by
  by_cases hr : r' = r
  · subst hr
    simp [blocked, block, tick, setStatus, setProcess, setWaitqueue, setPrios]
  · simp [blocked, block, tick, setStatus, setProcess, setWaitqueue, setPrios, hr]

theorem blocked_waitqueue (r' : Fin NR_RESOURCES) :
    ((s.blocked p prios r).resources r').waitqueue =
      if r' = r then (s.resources r).waitqueue ++ [p] else (s.resources r').waitqueue := by
  by_cases hr : r' = r
  · subst hr
    simp [blocked, block, tick, setStatus, setProcess, setWaitqueue, setPrios]
  · simp [blocked, block, tick, setStatus, setProcess, setWaitqueue, setPrios, hr]

end Blocked

section Freed

variable (r : Fin NR_RESOURCES) (holding : List ResourceSchedule)

@[simp] theorem freed_forkqueue : (s.freed p prios r holding).forkqueue = s.forkqueue := rfl

@[simp] theorem freed_readyqueue : (s.freed p prios r holding).readyqueue = s.readyqueue := rfl

@[simp] theorem freed_current : (s.freed p prios r holding).current = s.current := rfl

@[simp] theorem freed_self : (s.freed p prios r holding).procs p =
    { s.procs p with prio := prios p, resourcesHolding := holding } := by
  simp [freed, setHolding, setProcess, setOwner, setPrios]

theorem freed_of_ne {q : Fin n} (hq : q ≠ p) :
    (s.freed p prios r holding).procs q = { s.procs q with prio := prios q } := by
  simp [freed, setHolding, setProcess, setOwner, setPrios, hq]

theorem freed_owner (r' : Fin NR_RESOURCES) :
    ((s.freed p prios r holding).resources r').owner =
      if r' = r then none else (s.resources r').owner := by
  by_cases hr : r' = r
  · subst hr
    simp [freed, setHolding, setProcess, setOwner, setPrios]
  · simp [freed, setHolding, setProcess, setOwner, setPrios, hr]

@[simp] theorem freed_waitqueue (r' : Fin NR_RESOURCES) :
    ((s.freed p prios r holding).resources r').waitqueue = (s.resources r').waitqueue := by
  by_cases hr : r' = r
  · subst hr
    simp [freed, setHolding, setProcess, setOwner, setPrios]
  · simp [freed, setHolding, setProcess, setOwner, setPrios, hr]

end Freed

section MoveToReady

variable (r : Fin NR_RESOURCES)

@[simp] theorem moveToReady_forkqueue : (s.moveToReady r p).forkqueue = s.forkqueue := rfl

@[simp] theorem moveToReady_readyqueue :
    (s.moveToReady r p).readyqueue = s.readyqueue ++ [p] := rfl

@[simp] theorem moveToReady_current : (s.moveToReady r p).current = s.current := rfl

@[simp] theorem moveToReady_self :
    (s.moveToReady r p).procs p = { s.procs p with status := .ready } := by
  simp [moveToReady, setStatus, setProcess, setWaitqueue]

theorem moveToReady_of_ne {q : Fin n} (hq : q ≠ p) :
    (s.moveToReady r p).procs q = s.procs q := by
  simp [moveToReady, setStatus, setProcess, setWaitqueue, hq]

@[simp] theorem moveToReady_owner (r' : Fin NR_RESOURCES) :
    ((s.moveToReady r p).resources r').owner = (s.resources r').owner := by
  by_cases hr : r' = r
  · subst hr
    simp [moveToReady, setStatus, setProcess, setWaitqueue]
  · simp [moveToReady, setStatus, setProcess, setWaitqueue, hr]

theorem moveToReady_waitqueue (r' : Fin NR_RESOURCES) :
    ((s.moveToReady r p).resources r').waitqueue =
      if r' = r then (s.resources r).waitqueue.erase p else (s.resources r').waitqueue := by
  by_cases hr : r' = r
  · subst hr
    simp [moveToReady, setStatus, setProcess, setWaitqueue]
  · simp [moveToReady, setStatus, setProcess, setWaitqueue, hr]

end MoveToReady

@[simp] theorem grow_self :
    (s.grow p).procs p = { s.procs p with age := (s.procs p).age + 1 } := by
  simp [grow, setProcess]

theorem grow_of_ne {q : Fin n} (hq : q ≠ p) : (s.grow p).procs q = s.procs q := by
  simp [grow, setProcess, hq]

@[simp] theorem setHolding_self (holding : List ResourceSchedule) :
    (s.setHolding p holding).procs p = { s.procs p with resourcesHolding := holding } := by
  simp [setHolding, setProcess]

theorem setHolding_of_ne (holding : List ResourceSchedule) {q : Fin n} (hq : q ≠ p) :
    (s.setHolding p holding).procs q = s.procs q := by
  simp [setHolding, setProcess, hq]

/-! What they leave as it was, for every process. -/

theorem granted_frame (rs : ResourceSchedule) (pending : List ResourceSchedule) (q : Fin n) :
    (s.granted p prios rs pending).procs q =
      { s.procs q with
        prio := prios q
        resourcesToAcquire := ((s.granted p prios rs pending).procs q).resourcesToAcquire
        resourcesHolding := ((s.granted p prios rs pending).procs q).resourcesHolding } := by
  by_cases hq : q = p
  · subst hq
    simp
  · rw [s.granted_of_ne p prios rs pending hq]

theorem blocked_frame (r : Fin NR_RESOURCES) (q : Fin n) : (s.blocked p prios r).procs q =
    { s.procs q with
      prio := prios q
      status := ((s.blocked p prios r).procs q).status } := by
  by_cases hq : q = p
  · subst hq
    simp
  · rw [s.blocked_of_ne p prios r hq]

theorem freed_frame (r : Fin NR_RESOURCES) (holding : List ResourceSchedule) (q : Fin n) :
    (s.freed p prios r holding).procs q =
      { s.procs q with
        prio := prios q
        resourcesHolding := ((s.freed p prios r holding).procs q).resourcesHolding } := by
  by_cases hq : q = p
  · subst hq
    simp
  · rw [s.freed_of_ne p prios r holding hq]

theorem moveToReady_frame (r : Fin NR_RESOURCES) (q : Fin n) : (s.moveToReady r p).procs q =
    { s.procs q with status := ((s.moveToReady r p).procs q).status } := by
  by_cases hq : q = p
  · subst hq
    simp
  · rw [s.moveToReady_of_ne p r hq]

theorem grow_frame (q : Fin n) :
    (s.grow p).procs q = { s.procs q with age := ((s.grow p).procs q).age } := by
  by_cases hq : q = p
  · subst hq
    simp
  · rw [s.grow_of_ne p hq]

theorem setHolding_frame (holding : List ResourceSchedule) (q : Fin n) :
    (s.setHolding p holding).procs q =
      { s.procs q with
        resourcesHolding := ((s.setHolding p holding).procs q).resourcesHolding } := by
  by_cases hq : q = p
  · subst hq
    simp
  · rw [s.setHolding_of_ne p holding hq]

/-! The priorities afterwards. -/

theorem granted_prio (rs : ResourceSchedule) (pending : List ResourceSchedule) :
    (s.granted p prios rs pending).prio = prios :=
  funext fun q => by rw [prio, s.granted_frame]

theorem blocked_prio (r : Fin NR_RESOURCES) : (s.blocked p prios r).prio = prios :=
  funext fun q => by rw [prio, s.blocked_frame]

theorem freed_prio (r : Fin NR_RESOURCES) (holding : List ResourceSchedule) :
    (s.freed p prios r holding).prio = prios :=
  funext fun q => by rw [prio, s.freed_frame]

theorem moveToReady_prio (r : Fin NR_RESOURCES) : (s.moveToReady r p).prio = s.prio :=
  funext fun q => by rw [prio, s.moveToReady_frame]; rfl

theorem grow_prio : (s.grow p).prio = s.prio :=
  funext fun q => by rw [prio, s.grow_frame]; rfl

theorem setHolding_prio (holding : List ResourceSchedule) :
    (s.setHolding p holding).prio = s.prio :=
  funext fun q => by rw [prio, s.setHolding_frame]; rfl

/-! Which processes are on a queue afterwards. -/

theorem granted_linked (rs : ResourceSchedule) (pending : List ResourceSchedule) (q : Fin n) :
    (s.granted p prios rs pending).linked q ↔ s.linked q := by
  simp [linked]

theorem blocked_linked (r : Fin NR_RESOURCES) (q : Fin n) :
    (s.blocked p prios r).linked q ↔ s.linked q ∨ q = p := by
  have hwaits : (∃ r', q ∈ ((s.blocked p prios r).resources r').waitqueue) ↔
      (∃ r', q ∈ (s.resources r').waitqueue) ∨ q = p := by
    constructor
    · rintro ⟨r', hwait⟩
      rw [s.blocked_waitqueue] at hwait
      by_cases hr : r' = r
      · rw [if_pos hr] at hwait
        rcases List.mem_append.mp hwait with hwait | hwait
        · exact .inl ⟨r, hwait⟩
        · exact .inr (List.mem_singleton.mp hwait)
      · rw [if_neg hr] at hwait
        exact .inl ⟨r', hwait⟩
    · rintro (⟨r', hwait⟩ | rfl)
      · refine ⟨r', ?_⟩
        rw [s.blocked_waitqueue]
        by_cases hr : r' = r
        · simp [hr ▸ hwait, hr]
        · simpa [hr] using hwait
      · exact ⟨r, by simp [blocked_waitqueue]⟩
  simp only [linked, blocked_forkqueue, blocked_readyqueue, hwaits, or_assoc]

theorem freed_linked (r : Fin NR_RESOURCES) (holding : List ResourceSchedule) (q : Fin n) :
    (s.freed p prios r holding).linked q ↔ s.linked q := by
  simp [linked]

theorem moveToReady_linked {r : Fin NR_RESOURCES} (hmem : p ∈ (s.resources r).waitqueue)
    (q : Fin n) : (s.moveToReady r p).linked q ↔ s.linked q := by
  constructor
  · rintro (hfork | hready | ⟨r', hwait⟩)
    · exact .inl hfork
    · rcases List.mem_append.mp hready with hready | hready
      · exact .inr (.inl hready)
      · exact .inr (.inr ⟨r, List.mem_singleton.mp hready ▸ hmem⟩)
    · rw [s.moveToReady_waitqueue] at hwait
      by_cases hr : r' = r
      · rw [if_pos hr] at hwait
        exact .inr (.inr ⟨r, List.mem_of_mem_erase hwait⟩)
      · rw [if_neg hr] at hwait
        exact .inr (.inr ⟨r', hwait⟩)
  · rintro (hfork | hready | ⟨r', hwait⟩)
    · exact .inl hfork
    · exact .inr (.inl (List.mem_append_left _ hready))
    · by_cases hq : q = p
      · exact .inr (.inl (by simp [hq]))
      · refine .inr (.inr ⟨r', ?_⟩)
        rw [s.moveToReady_waitqueue]
        by_cases hr : r' = r
        · rw [if_pos hr]
          exact (List.mem_erase_of_ne hq).mpr (hr ▸ hwait)
        · rwa [if_neg hr]

end Sim

/-! ## The effects -/

/-- What one step can do. -/
inductive Effect (policy : Policy n) : Config n → Config n → Prop
  | finish {s after : Sim n} (hturn : Turn policy (__forkOnSchedule s) none after)
      (hforks : after.forkqueue = []) : Effect policy ⟨.iterate, s⟩ ⟨.finished, after⟩
  | idle {s after : Sim n} (hturn : Turn policy (__forkOnSchedule s) none after)
      (hforks : after.forkqueue ≠ []) : Effect policy ⟨.iterate, s⟩ ⟨.iterate, after.tick⟩
  | dispatch {s after : Sim n} {p : Fin n}
      (hturn : Turn policy (__forkOnSchedule s) (some p) after) :
      Effect policy ⟨.iterate, s⟩ ⟨.acquire p [] (after.procs p).resourcesToAcquire, after⟩
  | refuse {s : Sim n} {prev : Fin n} {fault : Fault} (hcurrent : s.current = some prev)
      (hage : (s.procs prev).age = (s.procs prev).lifespan)
      (hassert : (∃ r, prev ∈ (s.resources r).waitqueue) ∨ (s.procs prev).resourcesHolding ≠ [] ∨
        (s.procs prev).resourcesToAcquire ≠ []) :
      Effect policy ⟨.iterate, s⟩ ⟨.failed fault, s⟩
  | skip {s : Sim n} {p : Fin n} {skipped todo : List ResourceSchedule} {rs : ResourceSchedule}
      (hage : rs.atAge ≠ (s.procs p).age) :
      Effect policy ⟨.acquire p skipped (rs :: todo), s⟩ ⟨.acquire p (skipped ++ [rs]) todo, s⟩
  | grant {s : Sim n} {p : Fin n} {skipped todo : List ResourceSchedule} {rs : ResourceSchedule}
      (hage : rs.atAge = (s.procs p).age) (hfree : (s.resources rs.resourceId).owner = none) :
      Effect policy ⟨.acquire p skipped (rs :: todo), s⟩
        ⟨.acquire p skipped todo, s.granted p (policy.granted s p) rs (skipped ++ todo)⟩
  | block {s : Sim n} {p q : Fin n} {skipped todo : List ResourceSchedule} {rs : ResourceSchedule}
      (hage : rs.atAge = (s.procs p).age) (howned : (s.resources rs.resourceId).owner = some q) :
      Effect policy ⟨.acquire p skipped (rs :: todo), s⟩
        ⟨.iterate, s.blocked p (policy.blocked s p q) rs.resourceId⟩
  | grow {s : Sim n} {p : Fin n} {skipped : List ResourceSchedule} :
      Effect policy ⟨.acquire p skipped [], s⟩
        ⟨.release p [] (s.procs p).resourcesHolding, s.grow p⟩
  | keep {s : Sim n} {p : Fin n} {kept todo : List ResourceSchedule} {rs : ResourceSchedule}
      (hduration : rs.duration ≠ 1) :
      Effect policy ⟨.release p kept (rs :: todo), s⟩
        ⟨.release p (kept ++ [rs.countDown]) todo, s.setHolding p (kept ++ rs.countDown :: todo)⟩
  | drop {s : Sim n} {p : Fin n} {kept todo : List ResourceSchedule} {rs : ResourceSchedule}
      {prios : Fin n → Nat} (hduration : rs.duration = 1)
      (hprios : prios = policy.released (s.setHolding p (kept ++ rs.countDown :: todo)) p)
      (howner : (s.resources rs.resourceId).owner = some p)
      (hqueue : (s.resources rs.resourceId).waitqueue = []) :
      Effect policy ⟨.release p kept (rs :: todo), s⟩
        ⟨.release p kept todo, s.freed p prios rs.resourceId (kept ++ todo)⟩
  | wake {s : Sim n} {p first waiter : Fin n} {rest : List (Fin n)}
      {kept todo : List ResourceSchedule} {rs : ResourceSchedule} {prios : Fin n → Nat}
      (hduration : rs.duration = 1)
      (hprios : prios = policy.released (s.setHolding p (kept ++ rs.countDown :: todo)) p)
      (howner : (s.resources rs.resourceId).owner = some p)
      (hqueue : (s.resources rs.resourceId).waitqueue = first :: rest)
      (hmem : waiter ∈ first :: rest)
      (hwaiter : waiter =
        policy.waiter (s.freed p prios rs.resourceId (kept ++ rs.countDown :: todo)) first rest) :
      Effect policy ⟨.release p kept (rs :: todo), s⟩
        ⟨.release p kept todo,
          (s.freed p prios rs.resourceId (kept ++ todo)).moveToReady rs.resourceId waiter⟩
  | tick {s : Sim n} {p : Fin n} {kept : List ResourceSchedule} :
      Effect policy ⟨.release p kept [], s⟩ ⟨.iterate, s.tick⟩
  | finished {s : Sim n} : Effect policy ⟨.finished, s⟩ ⟨.finished, s⟩
  | failed {s : Sim n} {fault : Fault} : Effect policy ⟨.failed fault, s⟩ ⟨.failed fault, s⟩

/-! ## Updating the previous process -/

theorem setStatus_procs (s : Sim n) (p q : Fin n) (status : ProcessStatus) :
    (s.setStatus p status).procs q =
      { s.procs q with status := if q = p then status else (s.procs q).status } := by
  by_cases hq : q = p
  · subst hq
    simp [Sim.setStatus, Sim.setProcess]
  · simp [Sim.setStatus, Sim.setProcess, hq]

theorem setStatus_setStatus (s : Sim n) (p : Fin n) (first second : ProcessStatus) :
    (s.setStatus p first).setStatus p second = s.setStatus p second := by
  simp [Sim.setStatus, Sim.setProcess]

theorem setStatus_self (s : Sim n) (p : Fin n) : s.setStatus p (s.procs p).status = s := by
  simp [Sim.setStatus, Sim.setProcess]

/-- What `__exit_process` asserts of a process. -/
def Sim.Detached (s : Sim n) (p : Fin n) : Prop :=
  ¬ s.linked p ∧ (s.procs p).resourcesHolding = [] ∧ (s.procs p).resourcesToAcquire = []

theorem setStatus_detached (s : Sim n) (p q : Fin n) (status : ProcessStatus) :
    (s.setStatus p status).Detached q ↔ s.Detached q := by
  rw [Sim.Detached, setStatus_procs]
  exact Iff.rfl

theorem exitProcess_ok {s : Sim n} {p : Fin n} (hdetached : s.Detached p) :
    __exitProcess s p = .ok s := by
  obtain ⟨hlinked, hholding, hpending⟩ := hdetached
  simp [__exitProcess, hlinked, hholding, hpending]

theorem exitProcess_error {s : Sim n} {p : Fin n} (hattached : ¬ s.Detached p) :
    ∃ fault, __exitProcess s p = .error fault := by
  by_cases hlinked : s.linked p
  · exact ⟨.exitLinked, if_pos hlinked⟩
  · by_cases hholding : (s.procs p).resourcesHolding = []
    · have hpending : (s.procs p).resourcesToAcquire ≠ [] := fun hpending =>
        hattached ⟨hlinked, hholding, hpending⟩
      exact ⟨.exitPending, by simp [__exitProcess, hlinked, hholding, hpending]⟩
    · exact ⟨.exitHolding, by simp [__exitProcess, hlinked, hholding]⟩

theorem updatePrev_done {s : Sim n} {prev : Fin n}
    (hage : (s.procs prev).age = (s.procs prev).lifespan) :
    updatePrev s (some prev) = __exitProcess (s.setStatus prev .exit) prev := by
  have hkept : ∀ status, (s.setStatus prev status).procs prev =
      { s.procs prev with status := status } := by
    intro status
    simp [setStatus_procs]
  by_cases hrun : (s.procs prev).status = .running
  · simp [updatePrev, hrun, hkept, hage, setStatus_setStatus]
  · simp [updatePrev, hrun, hage]

theorem updatePrev_ok {s : Sim n} {prev : Fin n}
    (hdetached : (s.procs prev).age = (s.procs prev).lifespan → s.Detached prev) :
    updatePrev s (some prev) = .ok (s.setStatus prev (s.procs prev).updatedStatus) := by
  by_cases hage : (s.procs prev).age = (s.procs prev).lifespan
  · rw [updatePrev_done hage, exitProcess_ok ((setStatus_detached s _ _ _).mpr (hdetached hage))]
    simp [Process.updatedStatus, hage]
  · by_cases hrun : (s.procs prev).status = .running
    · simp [updatePrev, hrun, setStatus_procs, hage, Process.updatedStatus]
    · simp [updatePrev, hrun, hage, Process.updatedStatus, setStatus_self]

theorem updatePrev_error {s : Sim n} {prev : Fin n}
    (hage : (s.procs prev).age = (s.procs prev).lifespan) (hattached : ¬ s.Detached prev) :
    ∃ fault, updatePrev s (some prev) = .error fault := by
  rw [updatePrev_done hage]
  exact exitProcess_error fun hdetached => hattached ((setStatus_detached s _ _ _).mp hdetached)

/-! ## The list is complete -/

/-- The state after a turn to `next` that leaves `queue`. -/
def Sim.turned (s : Sim n) (next : Option (Fin n)) (queue : List (Fin n)) : Sim n :=
  { s with
    procs := fun q => { s.procs q with status := s.turnedStatus next q }
    readyqueue := queue
    current := next }

section Iteration

variable {s : Sim n} {next : Option (Fin n)} {queue : List (Fin n)}

theorem update_turned {prev : Fin n} (hcurrent : s.current = some prev) :
    Sim.setStatus { s with readyqueue := queue, current := next } prev
      (s.procs prev).updatedStatus = { s.turned none queue with current := next } := by
  refine Sim.ext (funext fun q => ?_) rfl rfl rfl rfl rfl
  rw [setStatus_procs]
  by_cases hq : q = prev
  · simp [Sim.turned, Sim.turnedStatus, hcurrent, hq]
  · simp [Sim.turned, Sim.turnedStatus, hcurrent, hq, Ne.symm hq]

theorem idle_turned (hcurrent : s.current = none) :
    { s with readyqueue := queue, current := next } =
      { s.turned none queue with current := next } := by
  simp [Sim.turned, Sim.turnedStatus, hcurrent]

theorem run_turned (s : Sim n) (p : Fin n) (queue : List (Fin n)) :
    Sim.setStatus { s.turned none queue with current := some p } p .running =
      s.turned (some p) queue := by
  refine Sim.ext (funext fun q => ?_) rfl rfl rfl rfl rfl
  rw [setStatus_procs]
  by_cases hq : q = p
  · simp [Sim.turned, Sim.turnedStatus, hq]
  · simp [Sim.turned, Sim.turnedStatus, hq, Ne.symm hq]

/-- The next process is on no queue when it starts to run. -/
theorem Chosen.not_linked {p : Fin n} (hqueued : s.Queued) (hshaped : Pc.Shaped s .iterate)
    (hchosen : Chosen policy s (some p) queue) : ¬ (s.turned (some p) queue).linked p := by
  have hcandidate : p ∈ s.candidates := hchosen.perm.mem_iff.mp (by simp)
  have hnodup := hchosen.perm.nodup_iff.mpr (candidates_nodup hqueued hshaped)
  simp only [Option.toList_some, List.singleton_append, List.nodup_cons] at hnodup
  rintro (hfork | hready | ⟨r, hwait⟩)
  · rcases candidate_status hqueued hshaped hcandidate with ⟨hmem, -⟩ | ⟨-, hrun⟩
    · exact hqueued.disjoint p hfork hmem
    · exact hqueued.not_linked hrun (.inl hfork)
  · exact hnodup.1 hready
  · have hstatus := (hqueued.wait r p hwait).1
    rcases candidate_status hqueued hshaped hcandidate with ⟨-, hother⟩ | ⟨-, hother⟩
    · simp [hstatus] at hother
    · simp [hstatus] at hother

/-- A process that has reached its lifespan is on no queue but a wait queue. -/
theorem Chosen.linked_prev {prev : Fin n} (hqueued : s.Queued) (hshaped : Pc.Shaped s .iterate)
    (hchosen : Chosen policy s next queue) (hcurrent : s.current = some prev)
    (hage : (s.procs prev).age = (s.procs prev).lifespan)
    (hlinked : Sim.linked { s with readyqueue := queue, current := next } prev) :
    ∃ r, prev ∈ (s.resources r).waitqueue := by
  rcases hshaped prev hcurrent with hrun | hwait
  · rcases hlinked with hfork | hready | hwait
    · exact absurd (.inl hfork) (hqueued.not_linked hrun)
    · have hcandidate : prev ∈ s.candidates :=
        hchosen.perm.mem_iff.mp (List.mem_append_right _ hready)
      rcases mem_candidates.mp hcandidate with hmem | ⟨-, hyoung⟩
      · exact absurd (.inr (.inl hmem)) (hqueued.not_linked hrun)
      · exact absurd hage hyoung.ne
    · exact hwait
  · exact hwait

theorem iteration_effect {sched : Scheduler n} (hlaw : Lawful sched policy)
    (hqueued : s.Queued) (hshaped : Pc.Shaped s .iterate) :
    Effect policy ⟨.iterate, s⟩ (sched.next ⟨.iterate, s⟩) := by
  have hforked := forkOnSchedule_queued hqueued
  have hprocs := forkOnSchedule_procs hqueued
  have hshape := forkOnSchedule_shaped hqueued hshaped
  obtain ⟨next, queue, hschedule, hchosen⟩ :=
    hlaw.schedule (__forkOnSchedule s) fun q hq => (hforked.ready q hq).2
  by_cases hretired : ∀ prev, s.current = some prev →
      (s.procs prev).age = (s.procs prev).lifespan →
      Sim.Detached { __forkOnSchedule s with readyqueue := queue, current := next } prev
  · have hturn : Turn policy (__forkOnSchedule s) next
        ((__forkOnSchedule s).turned next queue) := by
      refine ⟨rfl, rfl, rfl, rfl, fun _ => rfl, fun _ => rfl, hchosen, fun prev hcurrent hage => ?_⟩
      rw [hprocs] at hage
      obtain ⟨hlinked, hholding, hpending⟩ := hretired prev hcurrent hage
      exact ⟨fun r hwait => hlinked (.inr (.inr ⟨r, hwait⟩)), hholding, hpending⟩
    have hupdate : updatePrev { __forkOnSchedule s with readyqueue := queue, current := next }
        (__forkOnSchedule s).current =
        .ok { (__forkOnSchedule s).turned none queue with current := next } := by
      cases hcurrent : (__forkOnSchedule s).current with
      | none => exact congrArg Except.ok (idle_turned hcurrent)
      | some prev =>
          rw [← update_turned hcurrent]
          refine updatePrev_ok fun hage => ?_
          exact hretired prev hcurrent (hprocs ▸ hage)
    simp only [Scheduler.next, iteration, hschedule, ok_bind, hupdate]
    cases next with
    | none =>
        by_cases hempty : queue = [] ∧ (__forkOnSchedule s).forkqueue = []
        · simpa [runCurrent, Sim.turned, hempty] using Effect.finish hturn hempty.2
        · have hforks : (__forkOnSchedule s).forkqueue ≠ [] := fun hforks =>
            hempty ⟨hchosen.idle rfl, hforks⟩
          simpa [runCurrent, Sim.turned, hempty] using Effect.idle hturn hforks
    | some p =>
        have hlinked := hchosen.not_linked hforked hshape
        simp only [runCurrent, run_turned, if_neg hlinked]
        exact .dispatch hturn
  · simp only [not_forall] at hretired
    obtain ⟨prev, hcurrent, hage, hattached⟩ := hretired
    have herror : ∃ fault, updatePrev
        { __forkOnSchedule s with readyqueue := queue, current := next }
        (__forkOnSchedule s).current = .error fault := by
      rw [show (__forkOnSchedule s).current = some prev from hcurrent]
      refine updatePrev_error ?_ hattached
      exact hprocs ▸ hage
    obtain ⟨fault, herror⟩ := herror
    have hnext : sched.next ⟨.iterate, s⟩ = ⟨.failed fault, s⟩ := by
      simp only [Scheduler.next, iteration, hschedule, ok_bind, herror]
      rfl
    rw [hnext]
    refine .refuse hcurrent hage ?_
    by_cases hwait : ∃ r, prev ∈ (s.resources r).waitqueue
    · exact .inl hwait
    · have hlinked : ¬ Sim.linked
          { __forkOnSchedule s with readyqueue := queue, current := next } prev := by
        intro hlinked
        have hfound : ∃ r, prev ∈ ((__forkOnSchedule s).resources r).waitqueue :=
          hchosen.linked_prev hforked hshape hcurrent (hprocs ▸ hage) hlinked
        exact hwait hfound
      refine .inr (not_and_or.mp fun hempty => hattached ⟨hlinked, ?_, ?_⟩)
      · rw [hprocs]; exact hempty.1
      · rw [hprocs]; exact hempty.2

end Iteration

theorem acquireEntry_effect {sched : Scheduler n} (hlaw : Lawful sched policy) (s : Sim n)
    (p : Fin n) (skipped : List ResourceSchedule) (rs : ResourceSchedule)
    (todo : List ResourceSchedule) :
    Effect policy ⟨.acquire p skipped (rs :: todo), s⟩
      (acquireEntry sched s p skipped rs todo) := by
  unfold acquireEntry
  by_cases hage : rs.atAge = (s.procs p).age
  · rw [if_pos hage]
    cases howner : (s.resources rs.resourceId).owner with
    | none =>
        rw [hlaw.acquire_free s p _ howner]
        exact .grant hage howner
    | some q =>
        rw [hlaw.acquire_owned s p _ q howner]
        exact .block hage howner
  · rw [if_neg hage]
    exact .skip hage

theorem setHolding_freed (s : Sim n) (p : Fin n) (prios : Fin n → Nat) (r : Fin NR_RESOURCES)
    (first second : List ResourceSchedule) :
    (((s.setHolding p first).setPrios prios).setOwner r none).setHolding p second =
      s.freed p prios r second := by
  refine Sim.ext (funext fun q => ?_) rfl rfl rfl rfl rfl
  by_cases hq : q = p
  · subst hq
    simp [Sim.freed, Sim.setHolding, Sim.setProcess, Sim.setOwner, Sim.setPrios]
  · simp [Sim.freed, Sim.setHolding, Sim.setProcess, Sim.setOwner, Sim.setPrios, hq]

theorem setHolding_moveToReady (s : Sim n) {p waiter : Fin n} (hne : p ≠ waiter)
    (r : Fin NR_RESOURCES) (holding : List ResourceSchedule) :
    (s.moveToReady r waiter).setHolding p holding =
      (s.setHolding p holding).moveToReady r waiter := by
  refine Sim.ext (funext fun q => ?_) rfl rfl rfl rfl rfl
  by_cases hq : q = p
  · subst hq
    simp [Sim.moveToReady, Sim.setHolding, Sim.setProcess, Sim.setStatus, Sim.setWaitqueue, hne]
  · by_cases hw : q = waiter
    · subst hw
      simp [Sim.moveToReady, Sim.setHolding, Sim.setProcess, Sim.setStatus, Sim.setWaitqueue, hq]
    · simp [Sim.moveToReady, Sim.setHolding, Sim.setProcess, Sim.setStatus, Sim.setWaitqueue, hq,
        hw]

@[simp] theorem countDown_resourceId (rs : ResourceSchedule) :
    rs.countDown.resourceId = rs.resourceId := rfl

theorem releaseEntry_released {sched : Scheduler n} {s after : Sim n} {p : Fin n}
    {kept todo : List ResourceSchedule} {rs : ResourceSchedule} (hduration : rs.duration = 1)
    (hrelease : sched.release (s.setHolding p (kept ++ rs.countDown :: todo)) p rs.resourceId =
      .ok after) :
    releaseEntry sched s p kept rs todo =
      ⟨.release p kept todo, after.setHolding p (kept ++ todo)⟩ := by
  have hzero : rs.countDown.duration = 0 := by simp [ResourceSchedule.countDown, hduration]
  simp only [releaseEntry, if_pos hzero, countDown_resourceId, hrelease]

theorem releaseEntry_kept {sched : Scheduler n} {s : Sim n} {p : Fin n}
    {kept todo : List ResourceSchedule} {rs : ResourceSchedule} (hduration : rs.duration ≠ 1) :
    releaseEntry sched s p kept rs todo =
      ⟨.release p (kept ++ [rs.countDown]) todo,
        s.setHolding p (kept ++ rs.countDown :: todo)⟩ := by
  have hnonzero : rs.countDown.duration ≠ 0 := by
    simp only [ResourceSchedule.countDown]
    omega
  simp only [releaseEntry, if_neg hnonzero]

theorem releaseEntry_effect {sched : Scheduler n} (hlaw : Lawful sched policy) {s : Sim n}
    {p : Fin n} {kept todo : List ResourceSchedule} {rs : ResourceSchedule}
    (hqueued : s.Queued) (howned : s.Owned) (hruns : s.Runs p)
    (hholding : (s.procs p).resourcesHolding = kept ++ rs :: todo) :
    Effect policy ⟨.release p kept (rs :: todo), s⟩
      (releaseEntry sched s p kept rs todo) := by
  have howner : (s.resources rs.resourceId).owner = some p :=
    (howned.owner _ p).mpr (by simp [Process.held, hholding])
  by_cases hduration : rs.duration = 1
  · cases hqueue : (s.resources rs.resourceId).waitqueue with
    | nil =>
        have hrelease := hlaw.release_idle (s.setHolding p (kept ++ rs.countDown :: todo)) p
          rs.resourceId howner hqueue
        rw [releaseEntry_released hduration hrelease, setHolding_freed]
        exact .drop hduration rfl howner hqueue
    | cons first rest =>
        let prios := policy.released (s.setHolding p (kept ++ rs.countDown :: todo)) p
        let freed := s.freed p prios rs.resourceId (kept ++ rs.countDown :: todo)
        have hmem : policy.waiter freed first rest ∈ first :: rest := hlaw.waiter_mem _ _ _
        have hwait := (hqueued.wait rs.resourceId _ (hqueue ▸ hmem)).1
        have hne : policy.waiter freed first rest ≠ p := by
          intro heq
          rw [heq, hruns.2] at hwait
          cases hwait
        have hwake : freed.wake rs.resourceId (policy.waiter freed first rest) =
            .ok (freed.moveToReady rs.resourceId (policy.waiter freed first rest)) := by
          refine if_pos ?_
          rw [s.freed_of_ne p prios rs.resourceId _ hne]
          exact hwait
        have hrelease := hlaw.release_wake (s.setHolding p (kept ++ rs.countDown :: todo)) p
          rs.resourceId first rest howner hqueue
        have hfinal : (freed.moveToReady rs.resourceId
            (policy.waiter freed first rest)).setHolding p (kept ++ todo) =
            (s.freed p prios rs.resourceId (kept ++ todo)).moveToReady rs.resourceId
              (policy.waiter freed first rest) := by
          rw [setHolding_moveToReady freed (Ne.symm hne)]
          exact congrArg (fun s : Sim n => s.moveToReady rs.resourceId _)
            (setHolding_freed s p prios rs.resourceId _ _)
        rw [releaseEntry_released hduration (hrelease.trans hwake), hfinal]
        exact .wake hduration rfl howner hqueue hmem rfl
  · rw [releaseEntry_kept hduration]
    exact .keep hduration

theorem step_effect {sched : Scheduler n} (hlaw : Lawful sched policy) {c : Config n}
    (hwf : c.WellFormed) : Effect policy c (sched.next c) := by
  obtain ⟨hqueued, howned, hshaped⟩ := hwf
  obtain ⟨pc, s⟩ := c
  cases pc with
  | iterate => exact iteration_effect hlaw hqueued hshaped
  | acquire p skipped todo =>
      cases todo with
      | nil => exact .grow
      | cons rs todo => exact acquireEntry_effect hlaw s p skipped rs todo
  | release p kept todo =>
      cases todo with
      | nil => exact .tick
      | cons rs todo => exact releaseEntry_effect hlaw hqueued howned hshaped.1 hshaped.2
  | finished => exact .finished
  | failed fault => exact .failed

end OperatingSystem.Sched
