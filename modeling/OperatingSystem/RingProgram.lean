import OperatingSystem.Barriers
import OperatingSystem.RingLoops
import OperatingSystem.RingProgress

/-!
# The program around the ring buffer

`main` spawns the counter and the generators, lets the generators go, and waits until all of them
have done their requests. It adds up what they say they have generated while they wait for it at
a barrier, waits for the counter, and compares.

The threads take turns in any order. A step of a generator or of the counter is an access to its
own variables, a call of the ring buffer, or a step inside the call; a step of `main` reads one
entry of the array of a generator. Whoever divides by zero, fails an assertion or leaves an array,
also that of the slots, stops the program.
-/

namespace OperatingSystem.Ring

open RingLoops (MIN_VALUE MAX_VALUE GeneratorType assignGeneratorFn progress nrRequestsToGenerate)

/-- What stops the program. -/
inductive Stop where
  | assertion
  | divisionByZero
  | outOfBounds
deriving DecidableEq, Repr

/-- The statements of `generator_main`; `barrier k since` is the call of `pthread_barrier_wait`
number `k`, and the round in which the thread has arrived there. -/
inductive GeneratorPc where
  | notCreated
  | barrier (k : Nat) (since : Option Nat)
  | turn (i : Nat)
  | assertValue (i : Nat) (value : Int)
  | enqueue (i : Nat) (value : Int)
  | account (i : Nat) (value : Int)
  | report (i : Nat)
  | finished
deriving DecidableEq, Repr

/-- The statements of `counter_main`. -/
inductive CounterPc where
  | notCreated
  | turn (i : Nat)
  | dequeue (i : Nat)
  | assertValue (i : Nat) (value : Int)
  | account (i : Nat) (value : Int)
  | report (i : Nat)
  | finished
deriving DecidableEq, Repr

/-- The statements of `main`, after `__init_rb`, and of the functions that it calls. -/
inductive MainPc (G : Nat) where
  | spawnCounter
  | assertGenerators
  | spawnGenerator (i : Nat)
  | barrier (k : Nat) (since : Option Nat)
  | collect (left : List (Fin G × Fin MAX_VALUE))
  | joinGenerator (i : Nat)
  | joinCounter
  | compare
  | report (mismatch : Bool)
  | finished (mismatch : Bool)
deriving DecidableEq, Repr

/-- The threads and their variables. -/
structure Program (G : Nat) where
  ring : Ringbuffer (Thread G)
  barrier : Barrier
  generator : Fin G → GeneratorPc
  generated : Fin G → Fin MAX_VALUE → Nat
  counter : CounterPc
  valueCounter : Fin MAX_VALUE → Nat
  main : MainPc G
  generatedValues : Fin MAX_VALUE → Nat
  countedValues : Fin MAX_VALUE → Nat
  stopped : Option Stop

/-- The command line: `-v` or `-q`, `-R`, and `-n`; `-g` is `G`. What the clock says, the
microseconds `elapsed` while the values were generated, is not known before the run either. -/
structure Options where
  verbose : Bool
  generatorType : GeneratorType
  nrGenerate : Nat
  elapsed : Nat

/-- The value that a call is about to return. -/
def Stage.result : Stage → Int
  | .dequeue (.releaseSema value) => value
  | _ => 0

/-- An index into an array of `MAX_VALUE` entries. -/
def entry? (value : Int) : Option (Fin MAX_VALUE) :=
  if h : 0 ≤ value ∧ value < (MAX_VALUE : Nat) then some ⟨value.toNat, by omega⟩ else none

/-- Where a generator goes on behind a barrier. -/
def GeneratorPc.afterBarrier : Nat → GeneratorPc
  | 0 => .turn 0
  | 1 => .barrier 2 none
  | _ => .finished

/-- The entries that `fini_generators` reads, in its order. -/
def entries (G : Nat) : List (Fin G × Fin MAX_VALUE) :=
  (List.finRange G).flatMap fun g => (List.finRange MAX_VALUE).map fun value => (g, value)

/-- Where `main` goes on behind a barrier. -/
def MainPc.afterBarrier {G : Nat} : Nat → MainPc G
  | 0 => .barrier 1 none
  | 1 => .collect (entries G)
  | _ => .joinGenerator 0

namespace Program

variable {G : Nat} (options : Options) (p : Program G)

def stop (reason : Stop) : Program G := { p with stopped := some reason }

def goGenerator (g : Fin G) (pc : GeneratorPc) : Program G :=
  { p with generator := Function.update p.generator g pc }

def goCounter (pc : CounterPc) : Program G := { p with counter := pc }

def goMain (pc : MainPc G) : Program G := { p with main := pc }

/-- `pthread_barrier_wait` of one of the generators or `main`. -/
def arrive : Program G := { p with barrier := p.barrier.arrive (G + 1) }

/-- `my->generated[value]++` -/
def addGenerated (g : Fin G) (value : Fin MAX_VALUE) : Program G :=
  { p with
    generated := Function.update p.generated g
      (Function.update (p.generated g) value (p.generated g value + 1)) }

/-- `value_counter[value]++` -/
def addCounted (value : Fin MAX_VALUE) : Program G :=
  { p with valueCounter := Function.update p.valueCounter value (p.valueCounter value + 1) }

/-- `values[n] += g->generated[n]` -/
def collectValue (g : Fin G) (value : Fin MAX_VALUE) : Program G :=
  { p with
    generatedValues := Function.update p.generatedValues value
      (p.generatedValues value + p.generated g value) }

/-- The assertion of `__enqueue_rb` and `__dequeue_rb`. -/
def InRange (value : Int) : Prop := (MIN_VALUE : Int) ≤ value ∧ value < (MAX_VALUE : Nat)

instance (value : Int) : Decidable (InRange value) := inferInstanceAs (Decidable (_ ∧ _))

/-- A step of generator `g`; `random` is what `random()` returns. -/
def generatorMain (g : Fin G) (random : Nat) : GeneratorPc → Option (Program G)
  | .notCreated => none
  | .barrier k none =>
      some (p.arrive.goGenerator g (.barrier k (some p.barrier.round)))
  | .barrier k (some round) =>
      if round < p.barrier.round then some (p.goGenerator g (GeneratorPc.afterBarrier k)) else none
  | .turn i =>
      if i < options.nrGenerate then
        let value := assignGeneratorFn g options.generatorType random
        some (p.goGenerator g (.assertValue i (value.val : Int)))
      else some (p.goGenerator g (.barrier 1 none))
  | .assertValue i value =>
      if InRange value then
        (p.ring.act (.call (some g) (.enqueue value))).map fun ring =>
          { p with ring := ring }.goGenerator g (.enqueue i value)
      else some (p.stop .assertion)
  | .enqueue i value =>
      if p.ring.leavesSlots (some g) then some (p.stop .outOfBounds)
      else
        (p.ring.act (.step (some g))).map fun ring =>
          if ring.stage (some g) = .idle then
            { p with ring := ring }.goGenerator g (.account i value)
          else { p with ring := ring }
  | .account i value =>
      match entry? value with
      | none => some (p.stop .outOfBounds)
      | some entry => some ((p.addGenerated g entry).goGenerator g (.report i))
  | .report i =>
      match progress options.verbose options.nrGenerate i with
      | .error _ => some (p.stop .divisionByZero)
      | .ok _ => some (p.goGenerator g (.turn (i + 1)))
  | .finished => none

/-- `nr_requests` -/
def nrRequests : Nat := nrRequestsToGenerate options.nrGenerate G

/-- A step of the counter. -/
def counterMain : CounterPc → Option (Program G)
  | .notCreated => none
  | .turn i =>
      if i < nrRequests (G := G) options then
        (p.ring.act (.call none .dequeue)).map fun ring =>
          { p with ring := ring }.goCounter (.dequeue i)
      else some (p.goCounter .finished)
  | .dequeue i =>
      if p.ring.leavesSlots none then some (p.stop .outOfBounds)
      else
        (p.ring.act (.step none)).map fun ring =>
          if ring.stage none = .idle then
            { p with ring := ring }.goCounter (.assertValue i (p.ring.stage none).result)
          else { p with ring := ring }
  | .assertValue i value =>
      if InRange value then some (p.goCounter (.account i value)) else some (p.stop .assertion)
  | .account i value =>
      match entry? value with
      | none => some (p.stop .outOfBounds)
      | some entry => some ((p.addCounted entry).goCounter (.report i))
  | .report i =>
      match progress options.verbose (nrRequests (G := G) options) i with
      | .error _ => some (p.stop .divisionByZero)
      | .ok _ => some (p.goCounter (.turn (i + 1)))
  | .finished => none

/-- A step of `main`. -/
def mainStep : MainPc G → Option (Program G)
  | .spawnCounter => some ((p.goCounter (.turn 0)).goMain .assertGenerators)
  | .assertGenerators =>
      if 0 < G ∧ 0 < options.nrGenerate then some (p.goMain (.spawnGenerator 0))
      else some (p.stop .assertion)
  | .spawnGenerator i =>
      if h : i < G then
        some ((p.goGenerator ⟨i, h⟩ (.barrier 0 none)).goMain (.spawnGenerator (i + 1)))
      else some (p.goMain (.barrier 0 none))
  | .barrier k none => some (p.arrive.goMain (.barrier k (some p.barrier.round)))
  | .barrier k (some round) =>
      if round < p.barrier.round then some (p.goMain (MainPc.afterBarrier k)) else none
  | .collect [] => some (p.goMain (.barrier 2 none))
  | .collect ((g, value) :: left) =>
      some ((p.collectValue g value).goMain (.collect left))
  | .joinGenerator i =>
      if h : i < G then
        if p.generator ⟨i, h⟩ = .finished then some (p.goMain (.joinGenerator (i + 1))) else none
      else some (p.goMain .joinCounter)
  | .joinCounter =>
      if p.counter = .finished then
        some ({ p with countedValues := p.valueCounter }.goMain .compare)
      else none
  | .compare =>
      some (p.goMain (.report
        (decide (∃ value, p.generatedValues value ≠ p.countedValues value))))
  | .report mismatch =>
      -- nr_requests_to_generate * 1000000 / elapsed
      if options.elapsed = 0 then some (p.stop .divisionByZero)
      else some (p.goMain (.finished mismatch))
  | .finished _ => none

end Program

/-- Who takes the next step. -/
inductive Turn (G : Nat) where
  | main
  | generator (g : Fin G) (random : Nat)
  | counter
deriving DecidableEq, Repr

/-- The thread of the ring buffer that takes the step. -/
def Turn.thread {G : Nat} : Turn G → Option (Thread G)
  | .main => none
  | .generator g _ => some (some g)
  | .counter => some none

namespace Program

variable {G : Nat}

/-- One step of the program, if it has not been stopped. -/
def step (options : Options) (p : Program G) (turn : Turn G) : Option (Program G) :=
  if p.stopped = none then
    match turn with
    | .main => p.mainStep options p.main
    | .generator g random => p.generatorMain options g random (p.generator g)
    | .counter => p.counterMain options p.counter
  else none

/-- The state after `__init_rb(n)`. -/
def start (n : Nat) (memory : Nat → Int) : Program G where
  ring := initRingbuffer n memory
  barrier := ⟨0, 0⟩
  generator := fun _ => .notCreated
  generated := fun _ _ => 0
  counter := .notCreated
  valueCounter := fun _ => 0
  main := .spawnCounter
  generatedValues := fun _ => 0
  countedValues := fun _ => 0
  stopped := none

/-- The program with `-s n`. -/
def program (options : Options) (n : Nat) (memory : Nat → Int) : Machine (Program G) (Turn G) where
  init := start n memory
  step p turn next := p.step options turn = some next

/-- The thread spins: its next step is a compare-and-swap that fails. -/
def Spins (p : Program G) (turn : Turn G) : Prop :=
  ∃ t, turn.thread = some t ∧ p.ring.locks.Spins t

end Program

end OperatingSystem.Ring
