import OperatingSystem.Machine
import Mathlib.Logic.Function.Basic
import Mathlib.Tactic.Simps.Basic

/-!
# The blocking mutex

`acquire_mutex` and `release_mutex` on any number of `struct mutex`, run by any number of
threads. Each `compare_and_swap`, each access to `S`, `hold` and `queue`, and each of
`sigprocmask`, `sigwaitinfo` and `pthread_kill` is one step, and the steps of the threads
interleave. A thread has a mask and at most one pending `SIGUSR2`, the only signal there
is. A signal that is not blocked kills the program, and no thread steps any more.

`S` is an integer without bounds. The overflow of an `int` is undefined, so the runs of
the code are those that stay in its range.

The history of a mutex is not in the source. It lists who executed `S--`, who was granted
the mutex (found `0 ≤ S`, or was dequeued by a releaser), who returned from `acquire_mutex`
and who executed `S++`, oldest first.
-/

namespace OperatingSystem.Locks

/-- `struct mutex`; the queue has the threads instead of their nodes. -/
structure Mutex (T : Type*) where
  S : Int
  hold : Nat
  queue : List T

/-- What happened to a mutex. -/
structure History (T : Type*) where
  decremented : List T
  granted : List T
  returned : List T
  incremented : List T

/-- The statements of `acquire_mutex`. -/
inductive AcquirePc where
  | cas
  | load
  | store (S : Int)
  | test
  | addTail
  | sigprocmask
  | unlockWait
  | sigwaitinfo
  | unlock
  | done
deriving DecidableEq, Repr

/-- The statements of `release_mutex`. -/
inductive ReleasePc (T : Type*) where
  | cas
  | load
  | store (S : Int)
  | test
  | isEmpty
  | first
  | delete (gthread : T)
  | unlockKill (gthread : T)
  | kill (gthread : T)
  | unlock
  | done
deriving DecidableEq, Repr

/-- Where a thread is: in one of the two functions, or in its own code. -/
inductive Pc (T M : Type*) where
  | outside
  | acquire (m : M) (line : AcquirePc)
  | release (m : M) (line : ReleasePc T)
deriving DecidableEq, Repr

@[ext] structure State (T M : Type*) where
  mutex : M → Mutex T
  history : M → History T
  pc : T → Pc T M
  blocked : T → Bool
  pending : T → Bool
  killed : Bool

/-- The new contents of `*value` and the result. -/
def compareAndSwap (value old new : Nat) : Nat × Nat :=
  (if value = old then new else value, value)

section Model

variable {T M : Type*} [DecidableEq T] [DecidableEq M]

namespace State

variable (s : State T M) (m : M) (t : T)

@[simps -fullyApplied] def goto (pc : Pc T M) : State T M :=
  { s with pc := Function.update s.pc t pc }

@[simps -fullyApplied] def setMutex (mutex : Mutex T) : State T M :=
  { s with mutex := Function.update s.mutex m mutex }

@[simps -fullyApplied] def log (history : History T) : State T M :=
  { s with history := Function.update s.history m history }

@[simps -fullyApplied] def block : State T M :=
  { s with blocked := Function.update s.blocked t true }

@[simps -fullyApplied] def setPending (signal : Bool) : State T M :=
  { s with pending := Function.update s.pending t signal }

@[simp] def setS (S : Int) : State T M := s.setMutex m { s.mutex m with S := S }

@[simp] def setHold (hold : Nat) : State T M := s.setMutex m { s.mutex m with hold := hold }

@[simp] def setQueue (queue : List T) : State T M := s.setMutex m { s.mutex m with queue := queue }

@[simp] def decrement : State T M :=
  s.log m { s.history m with decremented := (s.history m).decremented ++ [t] }

@[simp] def grant : State T M :=
  s.log m { s.history m with granted := (s.history m).granted ++ [t] }

@[simp] def giveBack : State T M :=
  s.log m { s.history m with returned := (s.history m).returned ++ [t] }

@[simp] def increment : State T M :=
  s.log m { s.history m with incremented := (s.history m).incremented ++ [t] }

/-- `pthread_kill(gthread->pthread, SIGUSR2)`. -/
def pthreadKill (gthread : T) : State T M :=
  if s.blocked gthread then s.setPending gthread true else { s with killed := true }

omit [DecidableEq M] in
@[simp] theorem pthreadKill_mutex (gthread : T) : (s.pthreadKill gthread).mutex = s.mutex := by
  unfold pthreadKill
  split <;> rfl

omit [DecidableEq M] in
@[simp] theorem pthreadKill_history (gthread : T) :
    (s.pthreadKill gthread).history = s.history := by
  unfold pthreadKill
  split <;> rfl

omit [DecidableEq M] in
@[simp] theorem pthreadKill_blocked (gthread : T) :
    (s.pthreadKill gthread).blocked = s.blocked := by
  unfold pthreadKill
  split <;> rfl

omit [DecidableEq M] in
@[simp] theorem pthreadKill_pc (gthread : T) : (s.pthreadKill gthread).pc = s.pc := by
  unfold pthreadKill
  split <;> rfl

/-- One step of `acquire_mutex(m)` in thread `t`, if it is not asleep. -/
def acquireMutex : AcquirePc → Option (State T M)
  | .cas =>
      let swap := compareAndSwap (s.mutex m).hold 0 1
      some ((s.setHold m swap.1).goto t (.acquire m (if swap.2 ≠ 0 then .cas else .load)))
  | .load => some (s.goto t (.acquire m (.store (s.mutex m).S)))
  | .store S => some (((s.setS m (S - 1)).decrement m t).goto t (.acquire m .test))
  | .test => some (s.goto t (.acquire m (if (s.mutex m).S < 0 then .addTail else .unlock)))
  | .addTail =>
      some ((s.setQueue m ((s.mutex m).queue ++ [t])).goto t (.acquire m .sigprocmask))
  | .sigprocmask => some ((s.block t).goto t (.acquire m .unlockWait))
  | .unlockWait => some ((s.setHold m 0).goto t (.acquire m .sigwaitinfo))
  | .sigwaitinfo =>
      if s.pending t then some ((s.setPending t false).goto t (.acquire m .done)) else none
  | .unlock => some (((s.setHold m 0).grant m t).goto t (.acquire m .done))
  | .done => some ((s.giveBack m t).goto t .outside)

/-- One step of `release_mutex(m)` in thread `t`. -/
def releaseMutex : ReleasePc T → Option (State T M)
  | .cas =>
      let swap := compareAndSwap (s.mutex m).hold 0 1
      some ((s.setHold m swap.1).goto t (.release m (if swap.2 ≠ 0 then .cas else .load)))
  | .load => some (s.goto t (.release m (.store (s.mutex m).S)))
  | .store S => some (((s.setS m (S + 1)).increment m t).goto t (.release m .test))
  | .test => some (s.goto t (.release m (if (s.mutex m).S ≤ 0 then .isEmpty else .unlock)))
  | .isEmpty =>
      some (s.goto t (.release m (if !(s.mutex m).queue.isEmpty then .first else .done)))
  | .first =>
      (s.mutex m).queue.head?.map fun gthread => s.goto t (.release m (.delete gthread))
  | .delete gthread =>
      some (((s.setQueue m ((s.mutex m).queue.erase gthread)).grant m gthread).goto t
        (.release m (.unlockKill gthread)))
  | .unlockKill gthread => some ((s.setHold m 0).goto t (.release m (.kill gthread)))
  | .kill gthread => some ((s.pthreadKill gthread).goto t (.release m .done))
  | .unlock => some ((s.setHold m 0).goto t (.release m .done))
  | .done => some (s.goto t .outside)

/-- One step of thread `t`, if it is in one of the two functions and not asleep. -/
def step : Option (State T M) :=
  if s.killed then none
  else
    match s.pc t with
    | .outside => none
    | .acquire m line => s.acquireMutex m t line
    | .release m line => s.releaseMutex m t line

theorem step_outside (hpc : s.pc t = .outside) : s.step t = none := by
  rw [step, hpc]
  split <;> rfl

end State

/-! ## The entries that an update keeps -/

section Updates

variable {x : M → Mutex T} {h : M → History T} {m m' : M}

omit [DecidableEq T]

@[simp] theorem update_queue {S : Int} {hold : Nat} :
    (Function.update x m' ⟨S, hold, (x m').queue⟩ m).queue = (x m).queue := by
  by_cases hm : m = m'
  · subst hm
    simp
  · simp [hm]

variable {d g r i : List T}

@[simp] theorem update_granted :
    (Function.update h m' ⟨d, (h m').granted, r, i⟩ m).granted = (h m).granted := by
  by_cases hm : m = m'
  · subst hm
    simp
  · simp [hm]

@[simp] theorem update_returned :
    (Function.update h m' ⟨d, g, (h m').returned, i⟩ m).returned = (h m).returned := by
  by_cases hm : m = m'
  · subst hm
    simp
  · simp [hm]

@[simp] theorem update_incremented :
    (Function.update h m' ⟨d, g, r, (h m').incremented⟩ m).incremented = (h m).incremented := by
  by_cases hm : m = m'
  · subst hm
    simp
  · simp [hm]

end Updates

/-- The calls that a thread can make. -/
inductive Call (M : Type*) where
  | acquire (m : M)
  | release (m : M)
deriving DecidableEq, Repr

def Call.entry : Call M → Pc T M
  | .acquire m => .acquire m .cas
  | .release m => .release m .cas

/-- A thread calls one of the two functions, or steps inside it. -/
inductive Label (T M : Type*) where
  | call (t : T) (c : Call M)
  | step (t : T)

/-- The state after `init_mutex` on every mutex, with `S` set to `k m` afterwards. -/
def initState (k : M → Nat) : State T M where
  mutex m := { S := k m, hold := 0, queue := [] }
  history _ := { decremented := [], granted := [], returned := [], incremented := [] }
  pc _ := .outside
  blocked _ := false
  pending _ := false
  killed := false

/-- What a thread does. Only a thread in its own code makes a call. -/
def State.act (s : State T M) : Label T M → Option (State T M)
  | .call t c =>
      if s.killed = false ∧ s.pc t = .outside then some (s.goto t c.entry) else none
  | .step t => s.step t

/-- The guard says which calls the threads may make. -/
def Label.Allowed (guard : State T M → T → Call M → Prop) (s : State T M) : Label T M → Prop
  | .call t c => guard s t c
  | .step _ => True

instance (guard : State T M → T → Call M → Prop) [∀ s t c, Decidable (guard s t c)]
    (s : State T M) (label : Label T M) : Decidable (label.Allowed guard s) := by
  cases label <;> unfold Label.Allowed <;> infer_instance

/-- A thread releases a mutex only after as many of its acquisitions have returned. -/
def Disciplined (s : State T M) (t : T) : Call M → Prop
  | .acquire _ => True
  | .release m => (s.history m).incremented.count t < (s.history m).returned.count t

instance (s : State T M) (t : T) (c : Call M) : Decidable (Disciplined s t c) := by
  cases c <;> unfold Disciplined <;> infer_instance

/-- The threads and their mutexes. -/
def machine (k : M → Nat) (guard : State T M → T → Call M → Prop) :
    Machine (State T M) (Label T M) where
  init := initState k
  step s label next := label.Allowed guard s ∧ s.act label = some next

/-- One step of the machine, if it can take it. -/
def State.play (guard : State T M → T → Call M → Prop) [∀ s t c, Decidable (guard s t c)]
    (s : State T M) (label : Label T M) : Option (State T M) :=
  if label.Allowed guard s then s.act label else none

theorem play_step {k : M → Nat} {guard : State T M → T → Call M → Prop}
    [∀ s t c, Decidable (guard s t c)] {s next : State T M} {label : Label T M}
    (hplay : s.play guard label = some next) : (machine k guard).step s label next :=
  Option.ite_none_right_eq_some.mp hplay

end Model

end OperatingSystem.Locks
