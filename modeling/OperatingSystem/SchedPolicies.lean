import OperatingSystem.Sched
import OperatingSystem.Loops
import OperatingSystem.Machine

/-!
# The schedulers of `pa2.c`

The callbacks of the schedulers, as `pa2.c` has them. Those of `sjf_scheduler`,
`srtf_scheduler` and `rr_scheduler` do not look at the status of `current`.

A queue is a list here, so a callback that links a process into a second queue leaves it
on both. In the source the nodes of the first queue are lost then; no run is followed
past that point.
-/

namespace OperatingSystem.Sched

variable {n : Nat}

/-- The priorities of the processes. -/
def Sim.prio (s : Sim n) (p : Fin n) : Nat := (s.procs p).prio

/-! ## Acquiring -/

/-- Block the running process: the common end of the `acquire` callbacks. -/
def Sim.block (s : Sim n) (current : Fin n) (r : Fin NR_RESOURCES) : Sim n :=
  (s.setStatus current .wait).setWaitqueue r ((s.resources r).waitqueue ++ [current])

/-- `fcfs_acquire`. -/
def fcfsAcquire (s : Sim n) (current : Fin n) (r : Fin NR_RESOURCES) : Bool × Sim n :=
  match (s.resources r).owner with
  | none => (true, s.setOwner r (some current))
  | some _ => (false, s.block current r)

/-- `pcp_acquire`. -/
def pcpAcquire (s : Sim n) (current : Fin n) (r : Fin NR_RESOURCES) : Bool × Sim n :=
  match (s.resources r).owner with
  | none => (true, (s.setOwner r (some current)).setPrio current MAX_PRIO)
  | some _ => (false, s.block current r)

/-- `pip_acquire`. -/
def pipAcquire (s : Sim n) (current : Fin n) (r : Fin NR_RESOURCES) : Bool × Sim n :=
  match (s.resources r).owner with
  | none => (true, s.setOwner r (some current))
  | some owner =>
    let s :=
      if (s.procs owner).prio < (s.procs current).prio then
        s.setPrio owner (s.procs current).prio
      else s
    (false, s.block current r)

/-! ## Releasing -/

/-- Move a waiter to the ready queue. -/
def Sim.moveToReady (s : Sim n) (r : Fin NR_RESOURCES) (waiter : Fin n) : Sim n :=
  let s := s.setWaitqueue r ((s.resources r).waitqueue.erase waiter)
  let s := s.setStatus waiter .ready
  { s with readyqueue := s.readyqueue ++ [waiter] }

/-- Wake a waiter: the common end of the `release` callbacks. -/
def Sim.wake (s : Sim n) (r : Fin NR_RESOURCES) (waiter : Fin n) : Except Fault (Sim n) :=
  if (s.procs waiter).status = .wait then .ok (s.moveToReady r waiter) else .error .notWaiting

/-- `fcfs_release`. -/
def fcfsRelease (s : Sim n) (current : Fin n) (r : Fin NR_RESOURCES) : Except Fault (Sim n) :=
  if (s.resources r).owner = some current then
    let s := s.setOwner r none
    match (s.resources r).waitqueue with
    | [] => .ok s
    | waiter :: _ => s.wake r waiter
  else .error .notOwner

/-- `prio_release`. -/
def prioRelease (s : Sim n) (current : Fin n) (r : Fin NR_RESOURCES) : Except Fault (Sim n) :=
  if (s.resources r).owner = some current then
    let s := s.setPrio current (s.procs current).prioOrig
    let s := s.setOwner r none
    match (s.resources r).waitqueue with
    | [] => .ok s
    | first :: rest => s.wake r (scanMax s.prio first (first :: rest))
  else .error .notOwner

/-! ## Scheduling -/

/-- `current`, unless it is null or waits. -/
def Sim.running (s : Sim n) : Option (Fin n) :=
  s.current.filter fun p => (s.procs p).status ≠ .wait

/-- The code at the label `pick_next` of `fifo_schedule`. -/
def pickNext (s : Sim n) : Option (Fin n) × Sim n :=
  match s.readyqueue with
  | [] => (none, s)
  | next :: rest => (some next, { s with readyqueue := rest })

/-- `fifo_schedule`. -/
def fifoSchedule (s : Sim n) : Except Fault (Option (Fin n) × Sim n) :=
  match s.running with
  | none => .ok (pickNext s)
  | some current =>
    if (s.procs current).age < (s.procs current).lifespan then .ok (some current, s)
    else .ok (pickNext s)

/-- The loop of `sjf_schedule`: the first process of the least lifespan below `lsChk`. -/
def sjfSmallest (s : Sim n) (lsChk : Nat) : Option (Fin n) :=
  (s.readyqueue.foldl (fun (sjfSmallest, lsChk) sjfProc =>
    if (s.procs sjfProc).lifespan < lsChk then (some sjfProc, (s.procs sjfProc).lifespan)
    else (sjfSmallest, lsChk)) (none, lsChk)).1

/-- `current`, unless it is null or has run to its end. -/
def Sim.unfinished (s : Sim n) : Option (Fin n) :=
  s.current.filter fun p => (s.procs p).age < (s.procs p).lifespan

/-- `sjf_schedule`. -/
def sjfSchedule (s : Sim n) : Except Fault (Option (Fin n) × Sim n) :=
  match s.unfinished, s.readyqueue with
  | some current, _ => .ok (some current, s)
  | none, [] => .ok (none, s)
  | none, _ :: _ =>
    match sjfSmallest s 100 with
    | none => .error .nullPointer
    | some smallest =>
      .ok (some smallest, { s with readyqueue := s.readyqueue.erase smallest })

/-- `srtf_schedule`. -/
def srtfSchedule (s : Sim n) : Except Fault (Option (Fin n) × Sim n) :=
  let lifespan := fun p => (s.procs p).lifespan
  match s.current, s.readyqueue with
  | some current, first :: _ =>
    let queue :=
      if (s.procs current).age < (s.procs current).lifespan then current :: s.readyqueue
      else s.readyqueue
    let smallest := scanMin lifespan first queue
    if (s.procs smallest).age ≤ (s.procs smallest).lifespan then
      .ok (some smallest, { s with readyqueue := queue.erase smallest })
    else .ok (none, { s with readyqueue := queue })
  | some current, [] =>
    if (s.procs current).age < (s.procs current).lifespan then .ok (some current, s)
    else .ok (none, s)
  | none, first :: rest =>
    let smallest := scanMin lifespan first (first :: rest)
    .ok (some smallest, { s with readyqueue := s.readyqueue.erase smallest })
  | none, [] => .ok (none, s)

/-- `rr_schedule`. -/
def rrSchedule (s : Sim n) : Except Fault (Option (Fin n) × Sim n) :=
  match s.current, s.readyqueue with
  | some current, first :: _ =>
    let queue :=
      if (s.procs current).age < (s.procs current).lifespan then s.readyqueue ++ [current]
      else s.readyqueue
    .ok (some first, { s with readyqueue := queue.erase first })
  | none, first :: _ => .ok (some first, { s with readyqueue := s.readyqueue.erase first })
  | none, [] => .error .nullPointer
  | some current, [] =>
    if (s.procs current).age < (s.procs current).lifespan then .ok (some current, s)
    else .ok (none, s)

/-- `prio_schedule`. -/
def prioSchedule (s : Sim n) : Except Fault (Option (Fin n) × Sim n) :=
  match s.running, s.readyqueue with
  | some current, first :: _ =>
    let queue :=
      if (s.procs current).age < (s.procs current).lifespan then s.readyqueue ++ [current]
      else s.readyqueue
    let highest := scanMax s.prio first queue
    if (s.procs highest).age ≤ (s.procs highest).lifespan then
      .ok (some highest, { s with readyqueue := queue.erase highest })
    else .ok (none, { s with readyqueue := queue })
  | some current, [] =>
    if (s.procs current).age < (s.procs current).lifespan then .ok (some current, s)
    else .ok (none, s)
  | none, first :: rest =>
    let highest := scanMax s.prio first (first :: rest)
    .ok (some highest, { s with readyqueue := s.readyqueue.erase highest })
  | none, [] => .ok (none, s)

/-! ## The schedulers -/

def fifoScheduler : Scheduler n := ⟨fifoSchedule, fcfsAcquire, fcfsRelease⟩
def sjfScheduler : Scheduler n := ⟨sjfSchedule, fcfsAcquire, fcfsRelease⟩
def srtfScheduler : Scheduler n := ⟨srtfSchedule, fcfsAcquire, fcfsRelease⟩
def rrScheduler : Scheduler n := ⟨rrSchedule, fcfsAcquire, fcfsRelease⟩
def prioScheduler : Scheduler n := ⟨prioSchedule, fcfsAcquire, fcfsRelease⟩
def pcpScheduler : Scheduler n := ⟨prioSchedule, pcpAcquire, prioRelease⟩
def pipScheduler : Scheduler n := ⟨prioSchedule, pipAcquire, prioRelease⟩

/-- The schedulers whose `schedule` callback tests whether `current` is blocked. -/
def schedulers (n : Nat) : List (Scheduler n) :=
  [fifoScheduler, prioScheduler, pcpScheduler, pipScheduler]

/-- The schedulers whose `schedule` callback does not. -/
def blindSchedulers (n : Nat) : List (Scheduler n) := [sjfScheduler, srtfScheduler, rrScheduler]

/-- The call of `__do_simulation` on a loaded script. -/
def Script.start (script : Script n) : Config n := ⟨.iterate, script.load⟩

/-- The simulation of a script under a scheduler. -/
def Scheduler.machine (sched : Scheduler n) (script : Script n) : Machine (Config n) Unit :=
  .ofFun script.start sched.next

theorem reachable_next {sched : Scheduler n} {script : Script n} {c : Config n}
    (hreach : (sched.machine script).Reachable c) :
    (sched.machine script).Reachable (sched.next c) :=
  hreach.step (show (sched.machine script).step c () (sched.next c) from rfl)

theorem reachable_iterate {sched : Scheduler n} {script : Script n} {c : Config n}
    (hreach : (sched.machine script).Reachable c) (count : Nat) :
    (sched.machine script).Reachable (sched.next^[count] c) := by
  induction count with
  | zero => exact hreach
  | succ count ih =>
      rw [Function.iterate_succ_apply']
      exact reachable_next ih

/-- What a step takes from the scheduler. -/
theorem next_congr {first second : Scheduler n} (hacquire : first.acquire = second.acquire)
    (hrelease : first.release = second.release) {c : Config n} (hschedule : c.pc = .iterate →
      first.schedule (__forkOnSchedule c.sim) = second.schedule (__forkOnSchedule c.sim)) :
    first.next c = second.next c := by
  obtain ⟨pc, s⟩ := c
  cases pc with
  | iterate => simp only [Scheduler.next, iteration, hschedule rfl]
  | acquire p skipped todo =>
      cases todo with
      | nil => rfl
      | cons rs todo => simp only [Scheduler.next, acquireEntry, hacquire]
  | release p kept todo =>
      cases todo with
      | nil => rfl
      | cons rs todo => simp only [Scheduler.next, releaseEntry, hrelease]
  | finished | failed => rfl

end OperatingSystem.Sched
