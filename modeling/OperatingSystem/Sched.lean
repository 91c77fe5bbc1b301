import Mathlib.Data.List.Basic
import Mathlib.Data.Fin.Basic
import Mathlib.Logic.Function.Basic

/-!
# The scheduler simulation

The framework of `sched.c`: the processes, the resources and the queues, and the
main loop `__do_simulation` around the callbacks of a `struct scheduler`.

The `n` processes of a script are allocated once by the loader, so a pointer to a
process is an index. A queue is the list of the processes on it. The callbacks of
resources find the running process in the global `current`; here it is passed to
them.

The main loop is a machine that stops at three loop heads: that of an iteration,
and those of the loops over the two lists of the running process. Such a list is
split there into the entries that the loop has passed and kept, and the rest.
-/

namespace OperatingSystem.Sched

set_option linter.style.nameCheck false

abbrev NR_RESOURCES : Nat := 32
instance : @NeZero Nat Zero.ofOfNat0 NR_RESOURCES := ⟨Nat.succ_ne_zero 31⟩
def MAX_PRIO : Nat := 64

/-- `enum process_status`. -/
inductive ProcessStatus where
  | ready
  | running
  | wait
  | exit
deriving DecidableEq, Repr

/-- An `acquire` line. `atAge` is the field `at` as the unsigned number that the
comparison `rs->at == current->age` makes of it. -/
structure Acquire where
  resourceId : Fin NR_RESOURCES
  atAge : Nat
  duration : Int
deriving DecidableEq, Repr

/-- `struct resource_schedule`. The address of the block is the place of its line in
the process block. -/
structure ResourceSchedule extends Acquire where
  node : Nat
deriving DecidableEq, Repr

/-- `struct process`, less its list head. -/
structure Process where
  pid : Nat
  status : ProcessStatus
  age : Nat
  lifespan : Nat
  prio : Nat
  prioOrig : Nat
  startsAt : Nat
  resourcesToAcquire : List ResourceSchedule
  resourcesHolding : List ResourceSchedule
deriving DecidableEq, Repr

/-- `struct resource`. -/
structure Resource (n : Nat) where
  owner : Option (Fin n)
  waitqueue : List (Fin n)

/-- The globals of the simulation. -/
@[ext] structure Sim (n : Nat) where
  procs : Fin n → Process
  forkqueue : List (Fin n)
  readyqueue : List (Fin n)
  resources : Fin NR_RESOURCES → Resource n
  current : Option (Fin n)
  ticks : Nat

/-- The block of one process in a script. -/
structure Description where
  pid : Nat
  start : Nat
  lifespan : Nat
  prio : Nat
  acquires : List Acquire

/-- A process script. -/
abbrev Script (n : Nat) := Fin n → Description

/-- The assertions that can stop the simulation, and a null pointer followed by a
callback. -/
inductive Fault where
  /-- `list_empty(&p->list)` of `__exit_process` -/
  | exitLinked
  /-- `list_empty(&p->__resources_holding)` -/
  | exitHolding
  /-- `list_empty(&p->__resources_to_acquire)` -/
  | exitPending
  /-- `list_empty(&current->list)` of `__do_simulation` -/
  | currentLinked
  /-- `r->owner == current` -/
  | notOwner
  /-- `waiter->status == PROCESS_WAIT` -/
  | notWaiting
  | nullPointer
deriving DecidableEq, Repr

/-- The callbacks of a `struct scheduler`; those of initialization, of `forked` and of
`exiting` are missing or do nothing in every scheduler of the repository. -/
structure Scheduler (n : Nat) where
  schedule : Sim n → Except Fault (Option (Fin n) × Sim n)
  acquire : Sim n → Fin n → Fin NR_RESOURCES → Bool × Sim n
  release : Sim n → Fin n → Fin NR_RESOURCES → Except Fault (Sim n)

variable {n : Nat}

/-! ## Assignments -/

namespace Sim

def setProcess (s : Sim n) (p : Fin n) (process : Process) : Sim n :=
  { s with procs := Function.update s.procs p process }

def setStatus (s : Sim n) (p : Fin n) (status : ProcessStatus) : Sim n :=
  s.setProcess p { s.procs p with status := status }

def setPrio (s : Sim n) (p : Fin n) (prio : Nat) : Sim n :=
  s.setProcess p { s.procs p with prio := prio }

def setHolding (s : Sim n) (p : Fin n) (holding : List ResourceSchedule) : Sim n :=
  s.setProcess p { s.procs p with resourcesHolding := holding }

def setOwner (s : Sim n) (r : Fin NR_RESOURCES) (owner : Option (Fin n)) : Sim n :=
  { s with resources := Function.update s.resources r { s.resources r with owner := owner } }

def setWaitqueue (s : Sim n) (r : Fin NR_RESOURCES) (waitqueue : List (Fin n)) : Sim n :=
  { s with resources :=
      Function.update s.resources r { s.resources r with waitqueue := waitqueue } }

/-- `list_move_tail(&rs->list, &current->__resources_holding)`, which leaves `pending`. -/
def moveToHolding (s : Sim n) (p : Fin n) (rs : ResourceSchedule)
    (pending : List ResourceSchedule) : Sim n :=
  s.setProcess p { s.procs p with
    resourcesToAcquire := pending
    resourcesHolding := (s.procs p).resourcesHolding ++ [rs] }

/-- `current->age++`. -/
def grow (s : Sim n) (p : Fin n) : Sim n :=
  s.setProcess p { s.procs p with age := (s.procs p).age + 1 }

/-- `ticks++`. -/
def tick (s : Sim n) : Sim n := { s with ticks := s.ticks + 1 }

/-- `!list_empty(&p->list)`: the process is on some queue. -/
def linked (s : Sim n) (p : Fin n) : Prop :=
  p ∈ s.forkqueue ∨ p ∈ s.readyqueue ∨ ∃ r, p ∈ (s.resources r).waitqueue

instance (s : Sim n) (p : Fin n) : Decidable (s.linked p) :=
  inferInstanceAs (Decidable (_ ∨ _ ∨ _))

end Sim

/-! ## `sched.c` -/

/-- What `__load_script` makes of a process block. -/
def Description.process (description : Description) : Process where
  pid := description.pid
  status := .ready
  age := 0
  lifespan := description.lifespan
  prio := description.prio
  prioOrig := description.prio
  startsAt := description.start
  resourcesToAcquire := description.acquires.mapIdx fun node acquire => ⟨acquire, node⟩
  resourcesHolding := []

/-- The state in which `__do_simulation` is called. -/
def Script.load (script : Script n) : Sim n where
  procs := fun p => (script p).process
  forkqueue := List.finRange n
  readyqueue := []
  resources := fun _ => ⟨none, []⟩
  current := none
  ticks := 0

/-- `__fork_on_schedule`. -/
def __forkOnSchedule (s : Sim n) : Sim n :=
  let due := s.forkqueue.filter fun p => (s.procs p).startsAt ≤ s.ticks
  { s with
    procs := fun p => if p ∈ due then { s.procs p with status := .ready } else s.procs p
    forkqueue := s.forkqueue.filter fun p => ¬ (s.procs p).startsAt ≤ s.ticks
    readyqueue := s.readyqueue ++ due }

/-- `__exit_process`. -/
def __exitProcess (s : Sim n) (p : Fin n) : Except Fault (Sim n) :=
  if s.linked p then .error .exitLinked
  else if (s.procs p).resourcesHolding ≠ [] then .error .exitHolding
  else if (s.procs p).resourcesToAcquire ≠ [] then .error .exitPending
  else .ok s

/-- The update of the process that ran in the previous tick, if there is one. -/
def updatePrev (s : Sim n) : Option (Fin n) → Except Fault (Sim n)
  | none => .ok s
  | some prev =>
    let s := if (s.procs prev).status = .running then s.setStatus prev .ready else s
    if (s.procs prev).age = (s.procs prev).lifespan then
      __exitProcess (s.setStatus prev .exit) prev
    else
      .ok s

/-- The loop heads of the simulation, and its ends. -/
inductive Pc (n : Nat) where
  /-- the head of the main loop -/
  | iterate
  /-- in `__run_current_acquire`, with the entries passed and the entries to come -/
  | acquire (p : Fin n) (skipped todo : List ResourceSchedule)
  /-- in `__run_current_release` -/
  | release (p : Fin n) (kept todo : List ResourceSchedule)
  | finished
  | failed (fault : Fault)
deriving DecidableEq

structure Config (n : Nat) where
  pc : Pc n
  sim : Sim n

/-- The rest of an iteration up to `__run_current_acquire`, once `current` is chosen. -/
def runCurrent (s : Sim n) : Except Fault (Config n) :=
  match s.current with
  | none =>
    if s.readyqueue = [] ∧ s.forkqueue = [] then .ok ⟨.finished, s⟩
    else .ok ⟨.iterate, s.tick⟩
  | some p =>
    let s := s.setStatus p .running
    if s.linked p then .error .currentLinked
    else .ok ⟨.acquire p [] (s.procs p).resourcesToAcquire, s⟩

/-- An iteration of `__do_simulation` up to `__run_current_acquire`. -/
def iteration (sched : Scheduler n) (s : Sim n) : Except Fault (Config n) := do
  let s := __forkOnSchedule s
  let prev := s.current
  let (next, s) ← sched.schedule s
  let s := { s with current := next }
  let s ← updatePrev s prev
  runCurrent s

/-- The body of the loop of `__run_current_acquire`. -/
def acquireEntry (sched : Scheduler n) (s : Sim n) (p : Fin n)
    (skipped : List ResourceSchedule) (rs : ResourceSchedule) (todo : List ResourceSchedule) :
    Config n :=
  if rs.atAge = (s.procs p).age then
    match sched.acquire s p rs.resourceId with
    | (true, s) => ⟨.acquire p skipped todo, s.moveToHolding p rs (skipped ++ todo)⟩
    | (false, s) => ⟨.iterate, s.tick⟩
  else ⟨.acquire p (skipped ++ [rs]) todo, s⟩

/-- `--rs->duration`. -/
def ResourceSchedule.countDown (rs : ResourceSchedule) : ResourceSchedule :=
  { rs with duration := rs.duration - 1 }

/-- The body of the loop of `__run_current_release`. -/
def releaseEntry (sched : Scheduler n) (s : Sim n) (p : Fin n)
    (kept : List ResourceSchedule) (rs : ResourceSchedule) (todo : List ResourceSchedule) :
    Config n :=
  let rs := rs.countDown
  let s := s.setHolding p (kept ++ rs :: todo)
  if rs.duration = 0 then
    match sched.release s p rs.resourceId with
    | .ok s => ⟨.release p kept todo, s.setHolding p (kept ++ todo)⟩
    | .error fault => ⟨.failed fault, s⟩
  else ⟨.release p (kept ++ [rs]) todo, s⟩

/-- One step of `__do_simulation`. -/
def Scheduler.next (sched : Scheduler n) (c : Config n) : Config n :=
  match c.pc with
  | .iterate =>
    match iteration sched c.sim with
    | .ok c => c
    | .error fault => ⟨.failed fault, c.sim⟩
  | .acquire p skipped (rs :: todo) => acquireEntry sched c.sim p skipped rs todo
  | .acquire p _ [] => ⟨.release p [] (c.sim.procs p).resourcesHolding, c.sim.grow p⟩
  | .release p kept (rs :: todo) => releaseEntry sched c.sim p kept rs todo
  | .release _ _ [] => ⟨.iterate, c.sim.tick⟩
  | .finished => c
  | .failed _ => c

end OperatingSystem.Sched
