import OperatingSystem.ShellMissing

/-!
# The language of the shell

A line is a command: a built-in one, a program, or a loop around a command. What it does to the
prompt, to the timeout and to the world is told by its syntax; `run_command` does the same with the
tokens of the line, at every level of its recursion.
-/

namespace OperatingSystem.Shell

open OperatingSystem.Parser

/-! ## Commands -/

/-- The commands. A path that is missing is the home directory. -/
inductive Command where
  | nothing
  | leave
  | prompt (text : List Char)
  | cd (path : Option (List Char))
  | showTimeout
  | setTimeout (timeout : Nat)
  | launch (argv : List (List Char))
  | loop (times : Nat) (body : Command)
deriving DecidableEq, Repr

/-- What the commands read and change. -/
structure World where
  prompt : List Char
  timeout : Nat
  log : List Act
deriving DecidableEq, Repr

def World.act (world : World) (a : Act) : World := { world with log := world.log ++ [a] }

/-- What a command does. Only a line can leave the shell: in a loop `exit` does nothing. -/
def Command.run : Command → World → World
  | .nothing, world => world
  | .leave, world => world
  | .prompt text, world => { world with prompt := text }
  | .cd path, world => world.act (.chdir path)
  | .showTimeout, world => world.act (.showTimeout world.timeout)
  | .setTimeout timeout, world => { world with timeout }.act (.tellTimeout timeout)
  | .launch argv, world => world.act (.launch argv)
  | .loop times body, world => body.run^[times] world

/-- The command that words make, unless one of them is missing or too long, or the command is
repeated with a third word that `for` takes for a loop. -/
def Command.ofWords : List (List Char) → Option Command
  | [] => some .nothing
  | command :: rest =>
    if MAX_TOKEN_LEN ≤ command.length then none
    else if "exit".toList.isPrefixOf command then some .leave
    else if command = "prompt".toList then
      match rest with
      | [] => none
      | text :: _ => if text.length < MAX_TOKEN_LEN then some (.prompt text) else none
    else if command = "cd".toList then
      match rest with
      | [] => none
      | path :: _ => some (.cd (if path = "~".toList then none else some path))
    else if command = "for".toList then
      match rest with
      | number :: next :: third :: rest =>
        if third = "for".toList then none
        else if atoi number ≤ 0 then some .nothing
        else (ofWords (next :: third :: rest)).map (.loop (atoi number).toNat)
      | _ => none
    else if command = "timeout".toList then
      match rest with
      | [] => some .showTimeout
      | number :: _ => some (.setTimeout (atoi number % 2 ^ 32).toNat)
    else some (.launch (command :: rest))

section OfWords

variable {command : List Char} {rest : List (List Char)} {c : Command}

end OfWords

/-! ## Running a command -/

/-- What the commands see of the shell. -/
def world (s : Shell) : World := ⟨s.prompt, s.timeout, s.log⟩

/-- The tokens are as before, and the world is as the command leaves it. -/
structure Runs (c : Command) (s s' : Shell) : Prop where
  command : s'.command = s.command
  tokens : s'.tokens = s.tokens
  world : s'.world = c.run s.world

end OperatingSystem.Shell
