import OperatingSystem.Mutex

/-!
# The ring buffer

`enqueue_into_ringbuffer` and `dequeue_from_ringbuffer` over the three mutexes of the
buffer, run by any number of threads. Each access to `slots`, `in`, `out` and `N` is one
step, and so is each step of `acquire_mutex` and `release_mutex`. The field `in` is called
`inn` here.

The last four fields are not in the source. They list the values stored in and loaded from
the slots, and the values of the calls that have returned, oldest first, each with its
thread.
-/

namespace OperatingSystem.Ring

open Locks (Call Pc)

/-- The three fields of type `struct mutex`. -/
inductive Sem where
  | mutex
  | sema
  | empty
deriving DecidableEq, Repr

/-- The statements of `enqueue_into_ringbuffer`. -/
inductive EnqueuePc where
  | acquireSema
  | acquireMutex
  | loadIn
  | storeSlot (slot : Nat)
  | loadNext
  | loadN (slot : Nat)
  | storeIn (slot N : Nat)
  | releaseMutex
  | releaseEmpty
deriving DecidableEq, Repr

/-- The statements of `dequeue_from_ringbuffer`. -/
inductive DequeuePc where
  | acquireEmpty
  | acquireMutex
  | loadOut
  | loadSlot (slot : Nat)
  | loadNext (value : Int)
  | loadN (value : Int) (slot : Nat)
  | storeOut (value : Int) (slot N : Nat)
  | releaseMutex (value : Int)
  | releaseSema (value : Int)
deriving DecidableEq, Repr

inductive Stage where
  | idle
  | enqueue (value : Int) (line : EnqueuePc)
  | dequeue (line : DequeuePc)
deriving DecidableEq, Repr

/-- The call of `acquire_mutex` or `release_mutex` in a statement. -/
def Stage.call : Stage → Option (Call Sem)
  | .idle => none
  | .enqueue _ line =>
      match line with
      | .acquireSema => some (.acquire .sema)
      | .acquireMutex => some (.acquire .mutex)
      | .releaseMutex => some (.release .mutex)
      | .releaseEmpty => some (.release .empty)
      | _ => none
  | .dequeue line =>
      match line with
      | .acquireEmpty => some (.acquire .empty)
      | .acquireMutex => some (.acquire .mutex)
      | .releaseMutex _ => some (.release .mutex)
      | .releaseSema _ => some (.release .sema)
      | _ => none

/-- The slot that the next statement accesses. -/
def Stage.slot? : Stage → Option Nat
  | .enqueue _ (.storeSlot slot) => some slot
  | .dequeue (.loadSlot slot) => some slot
  | _ => none

/-- `struct ringbuffer`, with the threads. -/
structure Ringbuffer (T : Type*) where
  locks : Locks.State T Sem
  stage : T → Stage
  slots : Nat → Int
  inn : Nat
  out : Nat
  N : Nat
  written : List (T × Int)
  read : List (T × Int)
  enqueued : List (T × Int)
  dequeued : List (T × Int)

/-- The two functions, with the argument of the call. -/
inductive Operation where
  | enqueue (value : Int)
  | dequeue
deriving DecidableEq, Repr

def Operation.entry : Operation → Stage
  | .enqueue value => .enqueue value .acquireSema
  | .dequeue => .dequeue .acquireEmpty

/-- A thread calls one of the two functions, or steps inside it. -/
inductive Label (T : Type*) where
  | call (t : T) (op : Operation)
  | step (t : T)

def Label.thread {T : Type*} : Label T → T
  | .call t _ => t
  | .step t => t

section Model

variable {T : Type*} [DecidableEq T]

namespace Ringbuffer

variable (r : Ringbuffer T) (t : T)

@[simps -fullyApplied] def setLocks (locks : Locks.State T Sem) : Ringbuffer T :=
  { r with locks := locks }

@[simps -fullyApplied] def goto (stage : Stage) : Ringbuffer T :=
  { r with stage := Function.update r.stage t stage }

@[simps -fullyApplied] def storeSlot (slot : Nat) (value : Int) : Ringbuffer T :=
  { r with
    slots := Function.update r.slots slot value
    written := r.written ++ [(t, value)] }

@[simps -fullyApplied] def loadSlot (slot : Nat) : Ringbuffer T :=
  { r with read := r.read ++ [(t, r.slots slot)] }

@[simps -fullyApplied] def setIn (slot : Nat) : Ringbuffer T := { r with inn := slot }

@[simps -fullyApplied] def setOut (slot : Nat) : Ringbuffer T := { r with out := slot }

@[simps -fullyApplied] def finishEnqueue (value : Int) : Ringbuffer T :=
  { r with enqueued := r.enqueued ++ [(t, value)] }

@[simps -fullyApplied] def finishDequeue (value : Int) : Ringbuffer T :=
  { r with dequeued := r.dequeued ++ [(t, value)] }

/-- The next statement of `t` accesses a slot that the array does not have. -/
def leavesSlots : Bool := (r.stage t).slot?.any fun slot => r.N ≤ slot

/-- A statement of `enqueue_into_ringbuffer(value)` that is not inside a call. -/
def enqueueIntoRingbuffer (value : Int) : EnqueuePc → Option (Ringbuffer T)
  | .loadIn => some (r.goto t (.enqueue value (.storeSlot r.inn)))
  | .storeSlot slot => some ((r.storeSlot t slot value).goto t (.enqueue value .loadNext))
  | .loadNext => some (r.goto t (.enqueue value (.loadN r.inn)))
  | .loadN slot => some (r.goto t (.enqueue value (.storeIn slot r.N)))
  | .storeIn slot N => some ((r.setIn ((slot + 1) % N)).goto t (.enqueue value .releaseMutex))
  | _ => none

/-- A statement of `dequeue_from_ringbuffer()` that is not inside a call. -/
def dequeueFromRingbuffer : DequeuePc → Option (Ringbuffer T)
  | .loadOut => some (r.goto t (.dequeue (.loadSlot r.out)))
  | .loadSlot slot =>
      some ((r.loadSlot t slot).goto t (.dequeue (.loadNext (r.slots slot))))
  | .loadNext value => some (r.goto t (.dequeue (.loadN value r.out)))
  | .loadN value slot => some (r.goto t (.dequeue (.storeOut value slot r.N)))
  | .storeOut value slot N =>
      some ((r.setOut ((slot + 1) % N)).goto t (.dequeue (.releaseMutex value)))
  | _ => none

/-- The return from the call in a statement. -/
def resume : Option (Ringbuffer T) :=
  match r.stage t with
  | .enqueue value .acquireSema => some (r.goto t (.enqueue value .acquireMutex))
  | .enqueue value .acquireMutex => some (r.goto t (.enqueue value .loadIn))
  | .enqueue value .releaseMutex => some (r.goto t (.enqueue value .releaseEmpty))
  | .enqueue value .releaseEmpty => some ((r.finishEnqueue t value).goto t .idle)
  | .dequeue .acquireEmpty => some (r.goto t (.dequeue .acquireMutex))
  | .dequeue .acquireMutex => some (r.goto t (.dequeue .loadOut))
  | .dequeue (.releaseMutex value) => some (r.goto t (.dequeue (.releaseSema value)))
  | .dequeue (.releaseSema value) => some ((r.finishDequeue t value).goto t .idle)
  | _ => none

/-- The next statement of thread `t`: a call, or an access to the buffer. -/
def run : Option (Ringbuffer T) :=
  match (r.stage t).call with
  | some c => some (r.setLocks (r.locks.goto t c.entry))
  | none =>
      match r.stage t with
      | .idle => none
      | .enqueue value line => r.enqueueIntoRingbuffer t value line
      | .dequeue line => r.dequeueFromRingbuffer t line

/-- One step of thread `t`, if it is in one of the functions and not asleep. -/
def step : Option (Ringbuffer T) :=
  if r.locks.killed then none
  else if r.locks.pc t = .outside then r.run t
  else
    match r.locks.step t with
    | none => none
    | some locks =>
        if locks.pc t = .outside then (r.setLocks locks).resume t else some (r.setLocks locks)

/-- What a thread does. Only a thread in its own code makes a call. -/
def act : Label T → Option (Ringbuffer T)
  | .call t op =>
      if r.locks.killed = false ∧ r.stage t = .idle then some (r.goto t op.entry) else none
  | .step t => r.step t

end Ringbuffer

/-- The initial `S` of each mutex. -/
def permits (n : Nat) : Sem → Nat
  | .mutex => 1
  | .sema => n
  | .empty => 0

/-- The state after `init_ringbuffer(n)`; the slots have what `malloc` left there. -/
def initRingbuffer (n : Nat) (memory : Nat → Int) : Ringbuffer T where
  locks := Locks.initState (permits n)
  stage _ := .idle
  slots := memory
  inn := 0
  out := 0
  N := n
  written := []
  read := []
  enqueued := []
  dequeued := []

/-- The guard says which calls the threads may make. -/
def Label.Allowed (guard : Ringbuffer T → T → Operation → Prop) (r : Ringbuffer T) :
    Label T → Prop
  | .call t op => guard r t op
  | .step _ => True

instance (guard : Ringbuffer T → T → Operation → Prop) [∀ r t op, Decidable (guard r t op)]
    (r : Ringbuffer T) (label : Label T) : Decidable (label.Allowed guard r) := by
  cases label <;> unfold Label.Allowed <;> infer_instance

/-- The threads and the buffer. -/
def machine (n : Nat) (memory : Nat → Int) (guard : Ringbuffer T → T → Operation → Prop) :
    Machine (Ringbuffer T) (Label T) where
  init := initRingbuffer n memory
  step r label next := label.Allowed guard r ∧ r.act label = some next

/-- One step of the machine, if it can take it. -/
def Ringbuffer.play (guard : Ringbuffer T → T → Operation → Prop)
    [∀ r t op, Decidable (guard r t op)] (r : Ringbuffer T) (label : Label T) :
    Option (Ringbuffer T) :=
  if label.Allowed guard r then r.act label else none

theorem play_step {n : Nat} {memory : Nat → Int} {guard : Ringbuffer T → T → Operation → Prop}
    [∀ r t op, Decidable (guard r t op)] {r next : Ringbuffer T} {label : Label T}
    (hplay : r.play guard label = some next) : (machine n memory guard).step r label next :=
  Option.ite_none_right_eq_some.mp hplay

end Model

end OperatingSystem.Ring
