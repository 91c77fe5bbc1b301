import OperatingSystem.LinkedLists
import OperatingSystem.Loops
import OperatingSystem.SchedPolicies

/-!
# The scheduler simulation on pointers

`sched.c` and `pa2.c` once more, on the memory that they run on: the queues are rings of list
nodes in the processes, the two lists of a process are rings of list nodes in its
`struct resource_schedule` blocks, and both kinds of block are freed. A callback finds the
running process in the global `current`.

A run goes astray when it reads or writes what is not allocated, takes a list head for the node
of a block, or walks along a list that does not come back to its head.
-/

namespace OperatingSystem.Sched.Pointers

set_option linter.style.nameCheck false

/-- The list heads of the queues. -/
inductive Queue where
  | forkqueue
  | readyqueue
  | waitqueue (r : Fin NR_RESOURCES)
deriving DecidableEq

/-- The list heads in the processes. -/
inductive Slot (n : Nat) where
  | resourcesToAcquire (p : Fin n)
  | resourcesHolding (p : Fin n)
deriving DecidableEq

/-- The address of the block of a `struct resource_schedule`, or one of the addresses that
`list_del` leaves behind. -/
inductive Address (n : Nat) where
  | block (p : Fin n) (node : Nat)
  | LIST_POISON1
  | LIST_POISON2
deriving DecidableEq

/-- `struct process`, less its list head and its lists. -/
structure Fields where
  pid : Nat
  status : ProcessStatus
  age : Nat
  lifespan : Nat
  prio : Nat
  prioOrig : Nat
  startsAt : Nat
deriving DecidableEq

variable {n : Nat}

abbrev QueueNode (n : Nat) : Type := Queue ⊕ Fin n

abbrev EntryNode (n : Nat) : Type := Slot n ⊕ Address n

/-- The memory of the simulation. A block that is not allocated has no contents. -/
structure Memory (n : Nat) where
  procs : Fin n → Option Fields
  queues : Links (QueueNode n)
  schedules : Address n → Option Acquire
  entries : Links (EntryNode n)
  owner : Fin NR_RESOURCES → Option (Fin n)
  current : Option (Fin n)
  ticks : Nat

/-- The ends of a run that stops too early. -/
inductive Stop where
  | fault (fault : Fault)
  | astray
deriving DecidableEq

/-- `struct scheduler`. -/
structure Scheduler (n : Nat) where
  schedule : Memory n → Except Stop (Option (Fin n) × Memory n)
  acquire : Memory n → Fin NR_RESOURCES → Except Stop (Bool × Memory n)
  release : Memory n → Fin NR_RESOURCES → Except Stop (Memory n)

/-- Follow a pointer to a process. -/
def deref : Option (Fin n) → Except Stop (Fin n)
  | none => .error (.fault .nullPointer)
  | some p => .ok p

/-- `container_of`. -/
def containerOf {Head Elem : Type} : Head ⊕ Elem → Except Stop Elem
  | .inl _ => .error .astray
  | .inr x => .ok x

namespace Memory

variable (m : Memory n)

/-- Read the fields of a process. -/
def get (p : Fin n) : Except Stop Fields :=
  match m.procs p with
  | none => .error .astray
  | some fields => .ok fields

/-- Write the fields of a process. -/
def modify (p : Fin n) (write : Fields → Fields) : Except Stop (Memory n) := do
  let fields ← m.get p
  .ok { m with procs := Function.update m.procs p (some (write fields)) }

def setStatus (p : Fin n) (status : ProcessStatus) : Except Stop (Memory n) :=
  m.modify p fun fields => { fields with status := status }

def setPrio (p : Fin n) (prio : Nat) : Except Stop (Memory n) :=
  m.modify p fun fields => { fields with prio := prio }

def setOwner (r : Fin NR_RESOURCES) (owner : Option (Fin n)) : Memory n :=
  { m with owner := Function.update m.owner r owner }

/-- Read a `struct resource_schedule`. -/
def getSchedule (rs : Address n) : Except Stop Acquire :=
  match m.schedules rs with
  | none => .error .astray
  | some schedule => .ok schedule

def setSchedule (rs : Address n) (schedule : Option Acquire) : Memory n :=
  { m with schedules := Function.update m.schedules rs schedule }

/-- `ticks++`. -/
def tick : Memory n := { m with ticks := m.ticks + 1 }

/-! ## Lists -/

/-- The block of a node of a queue is allocated. -/
def allocated : QueueNode n → Bool
  | .inl _ => true
  | .inr p => (m.procs p).isSome

/-- The block of a node of a list in a process is allocated. -/
def entryAllocated : EntryNode n → Bool
  | .inl (.resourcesToAcquire p) => (m.procs p).isSome
  | .inl (.resourcesHolding p) => (m.procs p).isSome
  | .inr rs => (m.schedules rs).isSome

/-- An operation on a queue writes to the given nodes. -/
def writeQueues (nodes : List (QueueNode n)) (queues : Links (QueueNode n)) :
    Except Stop (Memory n) :=
  if nodes.all m.allocated then .ok { m with queues := queues } else .error .astray

def writeEntries (nodes : List (EntryNode n)) (entries : Links (EntryNode n)) :
    Except Stop (Memory n) :=
  if nodes.all m.entryAllocated then .ok { m with entries := entries } else .error .astray

/-- `list_add(&p->list, head)`. -/
def listAdd (p : Fin n) (head : Queue) : Except Stop (Memory n) :=
  m.writeQueues [.inr p, .inl head, m.queues.next (.inl head)]
    (m.queues.listAdd (.inr p) (.inl head))

/-- `list_add_tail(&p->list, head)`. -/
def listAddTail (p : Fin n) (head : Queue) : Except Stop (Memory n) :=
  m.writeQueues [.inr p, m.queues.prev (.inl head), .inl head]
    (m.queues.listAddTail (.inr p) (.inl head))

/-- `list_del_init` on the node of a process. -/
def listDelInit (node : QueueNode n) : Except Stop (Memory n) :=
  m.writeQueues [node, m.queues.prev node, m.queues.next node] (m.queues.listDelInit node)

/-- `list_move_tail(&p->list, head)`. -/
def listMoveTail (p : Fin n) (head : Queue) : Except Stop (Memory n) :=
  m.writeQueues [.inr p, m.queues.prev (.inr p), m.queues.next (.inr p), .inl head,
      (m.queues.__listDelEntry (.inr p)).prev (.inl head)]
    (m.queues.listMoveTail (.inr p) (.inl head))

/-- `list_move_tail(&rs->list, head)`. -/
def moveEntry (rs : Address n) (head : Slot n) : Except Stop (Memory n) :=
  m.writeEntries [.inr rs, m.entries.prev (.inr rs), m.entries.next (.inr rs), .inl head,
      (m.entries.__listDelEntry (.inr rs)).prev (.inl head)]
    (m.entries.listMoveTail (.inr rs) (.inl head))

/-- `list_del(&rs->list)`. -/
def delEntry (rs : Address n) : Except Stop (Memory n) :=
  m.writeEntries [.inr rs, m.entries.prev (.inr rs), m.entries.next (.inr rs)]
    (m.entries.listDel (.inr .LIST_POISON1) (.inr .LIST_POISON2) (.inr rs))

/-- `list_for_each_entry` over a queue. There are `n` processes, so a longer walk does not end. -/
def forEach {σ : Type} (head : Queue) (body : σ → Fin n → Except Stop σ) (s : σ) :
    Except Stop σ :=
  m.queues.forEachEntry head .astray body n (m.queues.next (.inl head)) s

end Memory

/-! ## `pa2.c` -/

/-- The common end of the `acquire` callbacks. -/
def block (m : Memory n) (r : Fin NR_RESOURCES) : Except Stop (Bool × Memory n) := do
  let current ← deref m.current
  let m ← m.listAddTail current (.waitqueue r)
  .ok (false, m)

/-- `fcfs_acquire`. -/
def fcfsAcquire (m : Memory n) (r : Fin NR_RESOURCES) : Except Stop (Bool × Memory n) :=
  match m.owner r with
  | none => .ok (true, m.setOwner r m.current)
  | some _ => do
    let current ← deref m.current
    let m ← m.setStatus current .wait
    block m r

/-- `pcp_acquire`. -/
def pcpAcquire (m : Memory n) (r : Fin NR_RESOURCES) : Except Stop (Bool × Memory n) :=
  match m.owner r with
  | none => do
    let m := m.setOwner r m.current
    let current ← deref m.current
    let m ← m.setPrio current MAX_PRIO
    .ok (true, m)
  | some _ => do
    let current ← deref m.current
    let m ← m.setStatus current .wait
    block m r

/-- `pip_acquire`. -/
def pipAcquire (m : Memory n) (r : Fin NR_RESOURCES) : Except Stop (Bool × Memory n) :=
  match m.owner r with
  | none => .ok (true, m.setOwner r m.current)
  | some owner => do
    let current ← deref m.current
    let m ← m.setStatus current .wait
    let owning ← m.get owner
    let running ← m.get current
    let m ← if owning.prio < running.prio then m.setPrio owner running.prio else .ok m
    block m r

/-- The common end of the `release` callbacks. -/
def wake (m : Memory n) (waiter : Fin n) : Except Stop (Memory n) := do
  let fields ← m.get waiter
  if fields.status = .wait then
    let m ← m.listDelInit (.inr waiter)
    let m ← m.setStatus waiter .ready
    m.listAddTail waiter .readyqueue
  else .error (.fault .notWaiting)

/-- `fcfs_release`. -/
def fcfsRelease (m : Memory n) (r : Fin NR_RESOURCES) : Except Stop (Memory n) :=
  if m.owner r = m.current then do
    let m := m.setOwner r none
    if m.queues.listEmpty (.inl (.waitqueue r)) then .ok m
    else
      let waiter ← containerOf (m.queues.next (.inl (.waitqueue r)))
      wake m waiter
  else .error (.fault .notOwner)

/-- The body of the loops that look for a process that is better than all before. -/
def better (m : Memory n) (isBetter : Fields → Fields → Bool) (best p : Fin n) :
    Except Stop (Fin n) := do
  let fields ← m.get p
  let bestFields ← m.get best
  .ok (if isBetter fields bestFields then p else best)

def higher (fields best : Fields) : Bool := best.prio < fields.prio

def shorter (fields best : Fields) : Bool := fields.lifespan < best.lifespan

/-- `prio_release`. -/
def prioRelease (m : Memory n) (r : Fin NR_RESOURCES) : Except Stop (Memory n) :=
  if m.owner r = m.current then do
    let owner ← deref (m.owner r)
    let fields ← m.get owner
    let m ← m.setPrio owner fields.prioOrig
    let m := m.setOwner r none
    if m.queues.listEmpty (.inl (.waitqueue r)) then .ok m
    else
      let waiter ← containerOf (m.queues.next (.inl (.waitqueue r)))
      let waiter ← m.forEach (.waitqueue r) (better m higher) waiter
      wake m waiter
  else .error (.fault .notOwner)

/-- `current && current->status != PROCESS_WAIT`. -/
def running (m : Memory n) : Except Stop (Option (Fin n)) :=
  match m.current with
  | none => .ok none
  | some current => do
    let fields ← m.get current
    .ok (if fields.status = .wait then none else some current)

/-- `current->age < current->lifespan`. -/
def unfinished (m : Memory n) (current : Fin n) : Except Stop Bool := do
  let fields ← m.get current
  .ok (fields.age < fields.lifespan)

/-- The code at the label `pick_next` of `fifo_schedule`. -/
def pickNext (m : Memory n) : Except Stop (Option (Fin n) × Memory n) :=
  if m.queues.listEmpty (.inl .readyqueue) then .ok (none, m)
  else do
    let next ← containerOf (m.queues.next (.inl .readyqueue))
    let m ← m.listDelInit (.inr next)
    .ok (some next, m)

/-- `fifo_schedule`. -/
def fifoSchedule (m : Memory n) : Except Stop (Option (Fin n) × Memory n) := do
  match ← running m with
  | none => pickNext m
  | some current =>
    if ← unfinished m current then .ok (some current, m) else pickNext m

/-- The body of the loop of `sjf_schedule`. -/
def sjfBody (m : Memory n) (found : Option (Fin n) × Nat) (sjfProc : Fin n) :
    Except Stop (Option (Fin n) × Nat) := do
  let fields ← m.get sjfProc
  .ok (if fields.lifespan < found.2 then (some sjfProc, fields.lifespan) else found)

/-- The end of `sjf_schedule`, once `current` has run to its end. -/
def sjfPick (m : Memory n) : Except Stop (Option (Fin n) × Memory n) :=
  if m.queues.listEmpty (.inl .readyqueue) then .ok (none, m)
  else do
    let (sjfSmallest, _) ← m.forEach .readyqueue (sjfBody m) (none, 100)
    let smallest ← deref sjfSmallest
    let m ← m.listDelInit (.inr smallest)
    .ok (some smallest, m)

/-- `sjf_schedule`. -/
def sjfSchedule (m : Memory n) : Except Stop (Option (Fin n) × Memory n) :=
  match m.current with
  | none => sjfPick m
  | some current => do
    if ← unfinished m current then .ok (some current, m) else sjfPick m

/-- The end of the schedulers that scan the ready queue, with no test of the process found. -/
def pickBest (m : Memory n) (isBetter : Fields → Fields → Bool) :
    Except Stop (Option (Fin n) × Memory n) :=
  if m.queues.listEmpty (.inl .readyqueue) then .ok (none, m)
  else do
    let first ← containerOf (m.queues.next (.inl .readyqueue))
    let best ← m.forEach .readyqueue (better m isBetter) first
    let m ← m.listDelInit (.inr best)
    .ok (some best, m)

/-- The end of the schedulers that scan the ready queue, with the test of the process found. -/
def pickYoung (m : Memory n) (isBetter : Fields → Fields → Bool) (first : Fin n) :
    Except Stop (Option (Fin n) × Memory n) := do
  let best ← m.forEach .readyqueue (better m isBetter) first
  let fields ← m.get best
  if fields.age ≤ fields.lifespan then
    let m ← m.listDelInit (.inr best)
    .ok (some best, m)
  else .ok (none, m)

/-- The part of `srtf_schedule` and `prio_schedule` for a `current` that can be queued again,
which `requeue` does. -/
def pickAgain (m : Memory n) (isBetter : Fields → Fields → Bool) (current : Fin n)
    (requeue : Memory n → Fin n → Except Stop (Memory n)) :
    Except Stop (Option (Fin n) × Memory n) := do
  if m.queues.listEmpty (.inl .readyqueue) then
    if ← unfinished m current then .ok (some current, m) else .ok (none, m)
  else
    let first ← containerOf (m.queues.next (.inl .readyqueue))
    let m ← if ← unfinished m current then requeue m current else .ok m
    pickYoung m isBetter first

/-- `srtf_schedule`. -/
def srtfSchedule (m : Memory n) : Except Stop (Option (Fin n) × Memory n) :=
  match m.current with
  | some current => pickAgain m shorter current fun m current => m.listAdd current .readyqueue
  | none => pickBest m shorter

/-- `prio_schedule`. -/
def prioSchedule (m : Memory n) : Except Stop (Option (Fin n) × Memory n) := do
  match ← running m with
  | some current =>
    pickAgain m higher current fun m current => m.listAddTail current .readyqueue
  | none => pickBest m higher

/-- `rr_schedule`. -/
def rrSchedule (m : Memory n) : Except Stop (Option (Fin n) × Memory n) := do
  let rrProc := m.queues.next (.inl .readyqueue)
  if m.queues.listEmpty (.inl .readyqueue) then
    let current ← deref m.current
    if ← unfinished m current then .ok (some current, m) else .ok (none, m)
  else
    let m ←
      match m.current with
      | none => .ok m
      | some current => do
        if ← unfinished m current then m.listAddTail current .readyqueue else .ok m
    let m ← m.listDelInit rrProc
    let rrProc ← containerOf rrProc
    .ok (some rrProc, m)

def fifoScheduler : Scheduler n := ⟨fifoSchedule, fcfsAcquire, fcfsRelease⟩
def sjfScheduler : Scheduler n := ⟨sjfSchedule, fcfsAcquire, fcfsRelease⟩
def srtfScheduler : Scheduler n := ⟨srtfSchedule, fcfsAcquire, fcfsRelease⟩
def rrScheduler : Scheduler n := ⟨rrSchedule, fcfsAcquire, fcfsRelease⟩
def prioScheduler : Scheduler n := ⟨prioSchedule, fcfsAcquire, fcfsRelease⟩
def pcpScheduler : Scheduler n := ⟨prioSchedule, pcpAcquire, prioRelease⟩
def pipScheduler : Scheduler n := ⟨prioSchedule, pipAcquire, prioRelease⟩

/-! ## `sched.c` -/

/-- The body of the loop of `__fork_on_schedule`. -/
def forkEntry (m : Memory n) (p : Fin n) : Except Stop (Memory n) := do
  let fields ← m.get p
  if fields.startsAt ≤ m.ticks then
    let m ← m.listMoveTail p .readyqueue
    m.setStatus p .ready
  else .ok m

/-- `__fork_on_schedule`. -/
def __forkOnSchedule (m : Memory n) : Except Stop (Memory n) :=
  Links.forEachEntrySafe Memory.queues Queue.forkqueue .astray forkEntry n
    (m.queues.next (.inl .forkqueue)) m

/-- `__exit_process`. -/
def __exitProcess (m : Memory n) (p : Fin n) : Except Stop (Memory n) := do
  let _ ← m.get p
  if ¬ m.queues.listEmpty (.inr p) then .error (.fault .exitLinked)
  else if ¬ m.entries.listEmpty (.inl (.resourcesHolding p)) then .error (.fault .exitHolding)
  else if ¬ m.entries.listEmpty (.inl (.resourcesToAcquire p)) then .error (.fault .exitPending)
  else .ok { m with procs := Function.update m.procs p none }

/-- The update of the process that ran in the previous tick, if there is one. -/
def updatePrev (m : Memory n) : Option (Fin n) → Except Stop (Memory n)
  | none => .ok m
  | some prev => do
    let fields ← m.get prev
    let m ← if fields.status = .running then m.setStatus prev .ready else .ok m
    if fields.age = fields.lifespan then
      let m ← m.setStatus prev .exit
      __exitProcess m prev
    else .ok m

/-- The loop heads of the simulation, and its ends. The loops over the two lists of the running
process stand at a node. -/
inductive Pc (n : Nat) where
  /-- the head of the main loop -/
  | iterate
  /-- in `__run_current_acquire` -/
  | acquire (pos : EntryNode n)
  /-- in `__run_current_release` -/
  | release (pos : EntryNode n)
  | finished
  | failed (stop : Stop)
deriving DecidableEq

structure Config (n : Nat) where
  pc : Pc n
  memory : Memory n

/-- The rest of an iteration up to `__run_current_acquire`, once `current` is chosen. -/
def runCurrent (m : Memory n) : Except Stop (Config n) :=
  match m.current with
  | none =>
    if m.queues.listEmpty (.inl .readyqueue) ∧ m.queues.listEmpty (.inl .forkqueue) then
      .ok ⟨.finished, m⟩
    else .ok ⟨.iterate, m.tick⟩
  | some current => do
    let m ← m.setStatus current .running
    if ¬ m.queues.listEmpty (.inr current) then .error (.fault .currentLinked)
    else .ok ⟨.acquire (m.entries.next (.inl (.resourcesToAcquire current))), m⟩

/-- An iteration of `__do_simulation` up to `__run_current_acquire`. -/
def iteration (sched : Scheduler n) (m : Memory n) : Except Stop (Config n) := do
  let m ← __forkOnSchedule m
  let prev := m.current
  let (next, m) ← sched.schedule m
  let m := { m with current := next }
  let m ← updatePrev m prev
  runCurrent m

/-- A turn of the loop of `__run_current_acquire`, or the way from its end to
`__run_current_release`. -/
def acquireTurn (sched : Scheduler n) (m : Memory n) (pos : EntryNode n) :
    Except Stop (Config n) := do
  let current ← deref m.current
  let fields ← m.get current
  if pos = .inl (.resourcesToAcquire current) then
    let m ← m.modify current fun fields => { fields with age := fields.age + 1 }
    .ok ⟨.release (m.entries.next (.inl (.resourcesHolding current))), m⟩
  else
    let rs ← containerOf pos
    let schedule ← m.getSchedule rs
    let tmp := m.entries.next pos
    if schedule.atAge = fields.age then
      let (acquired, m) ← sched.acquire m schedule.resourceId
      if acquired then
        let current ← deref m.current
        let m ← m.moveEntry rs (.resourcesHolding current)
        .ok ⟨.acquire tmp, m⟩
      else .ok ⟨.iterate, m.tick⟩
    else .ok ⟨.acquire tmp, m⟩

/-- A turn of the loop of `__run_current_release`, or the way from its end to the next
iteration. -/
def releaseTurn (sched : Scheduler n) (m : Memory n) (pos : EntryNode n) :
    Except Stop (Config n) := do
  let current ← deref m.current
  if pos = .inl (.resourcesHolding current) then .ok ⟨.iterate, m.tick⟩
  else
    let rs ← containerOf pos
    let schedule ← m.getSchedule rs
    let tmp := m.entries.next pos
    let schedule := { schedule with duration := schedule.duration - 1 }
    let m := m.setSchedule rs (some schedule)
    if schedule.duration = 0 then
      let m ← sched.release m schedule.resourceId
      let m ← m.delEntry rs
      .ok ⟨.release tmp, m.setSchedule rs none⟩
    else .ok ⟨.release tmp, m⟩

/-- One step of `__do_simulation`. -/
def Scheduler.next (sched : Scheduler n) (c : Config n) : Config n :=
  let turn :=
    match c.pc with
    | .iterate => iteration sched c.memory
    | .acquire pos => acquireTurn sched c.memory pos
    | .release pos => releaseTurn sched c.memory pos
    | .finished | .failed _ => .ok c
  match turn with
  | .ok c => c
  | .error stop => ⟨.failed stop, c.memory⟩

/-! ## Loading -/

/-- `__initialize`, on a memory in which nothing is allocated and the nodes hold anything. -/
def __initialize (queues : Links (QueueNode n)) (entries : Links (EntryNode n)) : Memory n :=
  let queues := queues.initListHead (.inl .readyqueue)
  let queues := (List.finRange NR_RESOURCES).foldl
    (fun queues r => queues.initListHead (.inl (.waitqueue r))) queues
  { procs := fun _ => none
    queues := queues.initListHead (.inl .forkqueue)
    schedules := fun _ => none
    entries := entries
    owner := fun _ => none
    current := none
    ticks := 0 }

/-- An `acquire` line of a process block. -/
def loadAcquire (p : Fin n) (m : Memory n) (line : Acquire × Nat) : Memory n :=
  let rs := .block p line.2
  { m with
    schedules := Function.update m.schedules rs (some line.1)
    entries := m.entries.listAddTail (.inr rs) (.inl (.resourcesToAcquire p)) }

/-- The block of a process. -/
def loadProcess (script : Script n) (m : Memory n) (p : Fin n) : Memory n :=
  let description := script p
  let fields : Fields :=
    { pid := description.pid
      status := .ready
      age := 0
      lifespan := description.lifespan
      prio := description.prio
      prioOrig := description.prio
      startsAt := description.start }
  let entries := m.entries.initListHead (.inl (.resourcesToAcquire p))
  let entries := entries.initListHead (.inl (.resourcesHolding p))
  let m : Memory n :=
    { m with
      procs := Function.update m.procs p (some fields)
      queues := m.queues.initListHead (.inr p)
      entries := entries }
  let m := description.acquires.zipIdx.foldl (loadAcquire p) m
  { m with queues := m.queues.listAddTail (.inr p) (.inl .forkqueue) }

/-- The memory in which `__do_simulation` is called. -/
def load (queues : Links (QueueNode n)) (entries : Links (EntryNode n)) (script : Script n) :
    Memory n :=
  (List.finRange n).foldl (loadProcess script) ( __initialize queues entries)

def start (queues : Links (QueueNode n)) (entries : Links (EntryNode n)) (script : Script n) :
    Config n :=
  ⟨.iterate, load queues entries script⟩

end OperatingSystem.Sched.Pointers
