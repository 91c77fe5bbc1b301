import OperatingSystem.LoaderCommands
import OperatingSystem.ShellCommands

/-!
# Sessions of the shell

`main` of PA1 shows its prompt, reads a line, and runs it, until the input ends or a line leaves
the shell. What the user sees of it is the run of the script that the lines make: each command runs
where the one before has left the prompt and the timeout, and what remains in the buffer of an
earlier line does not matter.
-/

namespace OperatingSystem.Shell

open OperatingSystem.Parser
open Loader (fgets)

abbrev MAX_COMMAND_LEN : Nat := 4096

/-! ## The shell of PA1 -/

/-- `__verbose`, `__color_start` and `__color_end`. -/
structure Options where
  verbose : Bool
  colorStart : List Char
  colorEnd : List Char
deriving DecidableEq, Repr

/-- The loop over the options that `getopt` finds. -/
def Options.ofFlags (opts : List Char) : Options :=
  opts.foldl (fun options opt =>
    if opt = 'q' then { options with verbose := false }
    else if opt = 'm' then { options with colorStart := [], colorEnd := [] }
    else options) ⟨true, "\x1b[0;31;40m".toList, "\x1b[0m".toList⟩

/-- `"%s%s%s "` with the prompt between the colors. -/
def Options.format (options : Options) (prompt : List Char) : List Char :=
  options.colorStart ++ prompt ++ options.colorEnd ++ [' ']

/-- What the user sees: what the commands do, and the prompts. -/
inductive Output where
  | act (a : Act)
  | prompt (text : List Char)
deriving DecidableEq, Repr

/-- What is shown of a prompt. -/
def Options.show (options : Options) (prompt : List Char) : List Output :=
  if options.verbose then [.prompt (options.format prompt)] else []

/-- The shell and what has been seen of it. -/
structure Main where
  shell : Shell
  output : List Output
deriving DecidableEq, Repr

/-- The shell before its first line. -/
def init : Shell :=
  ⟨List.replicate MAX_COMMAND_LEN NUL, List.replicate MAX_NR_TOKENS none, [], "$".toList, 2, []⟩

/-- The loop over the lines that `fgets` writes to the buffer. `log` is that of one line. -/
def readCommands (options : Options) (fuel : Nat) :
    List (List Char) → Main → Except Fault Main
  | [], m => .ok m
  | line :: lines, m => do
    let command := overwrite m.shell.command 0 (line ++ [NUL])
    let (ret, shell) ← turn fuel { m.shell with log := [] } command
    let m := ⟨shell, m.output ++ shell.log.map .act⟩
    if ret = 0 then return m
    readCommands options fuel lines { m with output := m.output ++ options.show shell.prompt }

/-- `main`. The first argument bounds the depth of the recursion of `run_command`. -/
def main (fuel : Nat) (opts stdin : List Char) : Except Fault Main :=
  let options := Options.ofFlags opts
  readCommands options fuel (fgets MAX_COMMAND_LEN [] stdin)
    ⟨init, options.show init.prompt⟩

/-! ## Scripts -/

/-- The command of a line, if there are not too many words. A terminator ends the line. -/
def Command.ofLine (line : List Char) : Option Command :=
  let ws := words isspace (line.takeWhile fun c => c ≠ NUL)
  if ws.length < MAX_NR_TOKENS then ofWords ws else none

/-- What the user sees of a script behind its first prompt, and where it leaves the world. -/
def session (options : Options) : List Command → World → List Output × World
  | [], world => ([], world)
  | command :: script, world =>
    let world := command.run { world with log := [] }
    let acts := world.log.map .act
    if command = .leave then (acts, world)
    else
      let (output, final) := session options script world
      (acts ++ (options.show world.prompt ++ output), final)

end OperatingSystem.Shell
