import OperatingSystem.Numbers
import OperatingSystem.Sched

/-!
# The loader of process scripts

`__load_script` reads a script line by line. Between a `process` line and its `end` line the
pointer `p` holds the process under construction, and `end` moves it to the fork queue; the other
properties write through `p`.
-/

namespace OperatingSystem.Loader

open OperatingSystem.Parser
open Sched (ProcessStatus)

set_option linter.style.nameCheck false

/-- What stops the program: an assertion, a null `p` that is written through, and what the parser
must not do. -/
inductive Fault where
  | assertion
  | nullPointer
  | parser (fault : Parser.Fault)
deriving DecidableEq, Repr

/-- `struct resource_schedule`, less its list head. -/
structure ResourceSchedule where
  resourceId : Int
  atAge : Int
  duration : Int
deriving DecidableEq, Repr

/-- `struct process`, less its list head. -/
structure Process where
  pid : Nat
  status : ProcessStatus
  age : Nat
  lifespan : Nat
  prio : Nat
  prioOrig : Nat
  startsAt : Nat
  resourcesToAcquire : List ResourceSchedule
  resourcesHolding : List ResourceSchedule
deriving DecidableEq, Repr

/-- A process after `memset` and the initialization of its lists. -/
def Process.zeroed : Process := ⟨0, .ready, 0, 0, 0, 0, 0, [], []⟩

/-- The pointer `p` and `__forkqueue`. -/
structure Loading where
  p : Option Process
  forkqueue : List Process
deriving DecidableEq, Repr

/-- The conversion of an `int` to an `unsigned int`. -/
def toUnsigned (n : Int) : Nat := (n % 2 ^ 32).toNat

/-- What the calls of `fgets(line, size, file)` read one after another, up to the end of the file;
the first list is what the current call has read. -/
def fgets (size : Nat) : List Char → List Char → List (List Char)
  | line, [] => if line = [] then [] else [line]
  | line, c :: file =>
    let line := line ++ [c]
    if c = '\n' ∨ line.length = size - 1 then line :: fgets size [] file else fgets size line file

/-- `strmatch`. -/
def strmatch (str expect : List Char) : Bool :=
  str.length = expect.length ∧ str.take expect.length = expect

def assert (p : Prop) [Decidable p] : Except Fault Unit :=
  if p then .ok () else .error .assertion

/-- An assignment through `p`. -/
def Loading.write (s : Loading) (f : Process → Process) : Except Fault Loading :=
  match s.p with
  | none => .error .nullPointer
  | some p => .ok { s with p := some (f p) }

def Process.setLifespan (p : Process) (n : Int) : Process := { p with lifespan := toUnsigned n }

def Process.setPrio (p : Process) (n : Int) : Process :=
  { p with prio := toUnsigned n, prioOrig := toUnsigned n }

def Process.setStart (p : Process) (n : Int) : Process := { p with startsAt := toUnsigned n }

/-- `list_add_tail(&rs->list, &p->__resources_to_acquire)`. -/
def Process.addAcquire (p : Process) (rs : ResourceSchedule) : Process :=
  { p with resourcesToAcquire := p.resourcesToAcquire ++ [rs] }

/-- The body of the loop over the lines, for the tokens of a line. It returns nothing if the
function returns `false`. -/
def loadLine (s : Loading) (parsed : Parsed) : Except Fault (Option Loading) := do
  if parsed.nrTokens = 0 then return some s
  let name ← (parsed.token 0).mapError .parser
  if strmatch name "process".toList then
    assert (parsed.nrTokens = 2)
    let number ← (parsed.token 1).mapError .parser
    return some { s with p := some { Process.zeroed with pid := toUnsigned (atoi number) } }
  else if strmatch name "end".toList then
    match s.p with
    | none => .error .assertion
    | some p => return some ⟨none, s.forkqueue ++ [p]⟩
  else if strmatch name "lifespan".toList then
    assert (parsed.nrTokens = 2)
    let number ← (parsed.token 1).mapError .parser
    some <$> s.write fun p => p.setLifespan (atoi number)
  else if strmatch name "prio".toList then
    assert (parsed.nrTokens = 2)
    let number ← (parsed.token 1).mapError .parser
    some <$> s.write fun p => p.setPrio (atoi number)
  else if strmatch name "start".toList then
    assert (parsed.nrTokens = 2)
    let number ← (parsed.token 1).mapError .parser
    some <$> s.write fun p => p.setStart (atoi number)
  else if strmatch name "acquire".toList then
    assert (parsed.nrTokens = 4)
    let resourceId ← (parsed.token 1).mapError .parser
    let atAge ← (parsed.token 2).mapError .parser
    let duration ← (parsed.token 3).mapError .parser
    some <$> s.write fun p => p.addAcquire ⟨atoi resourceId, atoi atAge, atoi duration⟩
  else return none

/-- The loop over the lines. -/
def loadLines : List (List Char) → Loading → Except Fault (Bool × Loading)
  | [], s => .ok (true, s)
  | line :: rest, s => do
    let (_, parsed) ← (parseCommand (line ++ [NUL]) (List.replicate 32 none)).mapError .parser
    match ← loadLine s parsed with
    | none => return (false, s)
    | some s => loadLines rest s

/-- `__load_script`, for the contents of the file. -/
def __loadScript (file : List Char) : Except Fault (Bool × Loading) :=
  loadLines (fgets 256 [] file) ⟨none, []⟩

end OperatingSystem.Loader
