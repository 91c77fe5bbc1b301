import OperatingSystem.Numbers
import OperatingSystem.Outcomes

/-!
# The shell

`run_command` of PA1 with its built-in commands. Its arguments are the number of tokens and the
token to begin with; the tokens and the command that they point into are shared by all levels of
the recursion, and `for` writes to them.
-/

namespace OperatingSystem

open OperatingSystem.Parser

/-- The size of the arrays that `run_command` copies tokens to. -/
abbrev MAX_TOKEN_LEN : Nat := 128

/-! ## The state -/

namespace Shell

/-- What the shell does to the world: external programs that it launches and waits for, changes
of the directory (`none` is the home directory), and messages about the timeout. -/
inductive Act where
  | launch (argv : List (List Char))
  | chdir (path : Option (List Char))
  | showTimeout (timeout : Nat)
  | tellTimeout (timeout : Nat)
deriving DecidableEq, Repr

end Shell

structure Shell where
  command : List Char
  tokens : List (Option Nat)
  name : List Char
  prompt : List Char
  timeout : Nat
  log : List Shell.Act
deriving DecidableEq, Repr

namespace Shell

def act (s : Shell) (a : Act) : Shell := { s with log := s.log ++ [a] }

/-- `set_timeout`. -/
def setTimeout (s : Shell) (timeout : Nat) : Shell :=
  { s with timeout := timeout, log := s.log ++ [.tellTimeout timeout] }

/-- `tokens[i]`, to be followed. -/
def place (s : Shell) (i : Nat) : Except Fault Nat :=
  match s.tokens[i]? with
  | none => .error .outOfBounds
  | some none => .error .nullPointer
  | some (some place) => .ok place

/-- The string at `tokens[i]`. -/
def string (s : Shell) (i : Nat) : Except Fault (List Char) := do
  let place ← s.place i
  return stringAt NUL s.command place

/-- The strings at `tokens[i]` and at what follows, up to the null pointer: what `execvp` reads. -/
def argv (command : List Char) : List (Option Nat) → Except Fault (List (List Char))
  | [] => .error .outOfBounds
  | none :: _ => .ok []
  | some place :: rest => do
    let argv ← argv command rest
    return stringAt NUL command place :: argv

/-- `strcpy` of a token to an array of `MAX_TOKEN_LEN` characters. -/
def copyOut (src : List Char) : Except Fault (List Char) :=
  if src.length < MAX_TOKEN_LEN then .ok src else .error .overflow

/-- `strcpy(tokens[dst], tokens[src])`. -/
def copyToken (s : Shell) (dst src : Nat) : Except Fault Shell := do
  let dest ← s.place dst
  let start ← s.place src
  let text := stringAt NUL s.command start
  if dest + text.length < start ∨ start + text.length < dest then
    if dest + text.length < s.command.length then
      return { s with command := overwrite s.command dest (text ++ [NUL]) }
    else .error .outOfBounds
  else .error .overlap

/-- `run_command`. The first argument bounds the depth of its recursion. -/
def runCommand : Nat → Shell → Int → Nat → Except Fault (Nat × Shell)
  | 0, _, _, _ => .error .outOfFuel
  | fuel + 1, s, nrTokens, tokens => do
    let command ← s.string tokens
    let name ← copyOut command
    let s := { s with name }
    if "exit".toList.isPrefixOf command then return (0, s)
    else if command = "prompt".toList then do
      let word ← s.string (tokens + 1)
      let prompt ← copyOut word
      return (1, { s with prompt })
    else if command = "cd".toList then do
      let path ← s.string (tokens + 1)
      return (1, s.act (.chdir (if path = "~".toList then none else some path)))
    else if command = "for".toList then do
      let number ← s.string (tokens + 1)
      let lnum := atoi number
      let third ← s.string (tokens + 3)
      if third = "for".toList then do
        let s ← repeatM (fun s => s.copyToken tokens (tokens + 2)) nrTokens.toNat s
        let nrTokens := nrTokens - 2
        let s ← repeatM (fun s => Prod.snd <$> runCommand fuel s nrTokens tokens) lnum.toNat s
        return (1, s)
      else do
        let s ← repeatM (fun s => Prod.snd <$> runCommand fuel s nrTokens (tokens + 2))
          lnum.toNat s
        return (1, s)
    else if command = "timeout".toList then
      if nrTokens = 1 then return (1, s.act (.showTimeout s.timeout))
      else do
        let number ← s.string (tokens + 1)
        let timein := atoi number
        return (1, s.setTimeout (timein % 2 ^ 32).toNat)
    else do
      let argv ← argv s.command (s.tokens.drop tokens)
      return (1, s.act (.launch argv))

/-- A turn of the loop of `main` on a line that has been read. It goes on if the result is not 0. -/
def turn (fuel : Nat) (s : Shell) (line : List Char) : Except Fault (Nat × Shell) := do
  let (found, p) ← Pa1.parseCommand line (List.replicate MAX_NR_TOKENS none)
  let s := { s with command := p.command, tokens := p.tokens }
  if found = 0 then return (1, s)
  else runCommand fuel s p.nrTokens 0

/-! ## The depth -/

/-- A larger bound on the depth does not change the outcome. -/
theorem runCommand_extends (fuel : Nat) (s : Shell) (nrTokens : Int) (tokens : Nat) :
    Extends .outOfFuel (runCommand fuel s nrTokens tokens)
      (runCommand (fuel + 1) s nrTokens tokens) := by
  induction fuel generalizing s nrTokens tokens with
  | zero => exact .inl rfl
  | succ fuel ih =>
      have hrepeat : ∀ (lnum : Nat) (s : Shell) (nrTokens : Int) (tokens : Nat),
          Extends .outOfFuel
            (repeatM (fun s => Prod.snd <$> runCommand fuel s nrTokens tokens) lnum s)
            (repeatM (fun s => Prod.snd <$> runCommand (fuel + 1) s nrTokens tokens) lnum s) :=
        fun lnum s nrTokens tokens =>
          Extends.repeatM (fun s => (ih s nrTokens tokens).map Prod.snd) lnum s
      rw [runCommand, runCommand]
      refine Extends.bind (.refl _) fun command => Extends.bind (.refl _) fun name => ?_
      refine Extends.ite (.refl _) (Extends.ite (.refl _) (Extends.ite (.refl _) ?_))
      refine Extends.ite ?_ (.refl _)
      refine Extends.bind (.refl _) fun number => Extends.bind (.refl _) fun third => ?_
      refine Extends.ite ?_ ?_
      · refine Extends.bind (.refl _) fun s => ?_
        exact Extends.bind (hrepeat _ s _ _) fun s => .refl _
      · exact Extends.bind (hrepeat _ _ _ _) fun s => .refl _

theorem runCommand_extends_add (fuel more : Nat) (s : Shell) (nrTokens : Int) (tokens : Nat) :
    Extends .outOfFuel (runCommand fuel s nrTokens tokens)
      (runCommand (fuel + more) s nrTokens tokens) := by
  induction more with
  | zero => exact .refl _
  | succ more ih => exact ih.trans (runCommand_extends _ s nrTokens tokens)

/-- So there is one outcome at most, besides running out. -/
theorem runCommand_unique {fuel fuel' : Nat} {s : Shell} {nrTokens : Int} {tokens : Nat}
    {result result' : Except Fault (Nat × Shell)}
    (hrun : s.runCommand fuel nrTokens tokens = result)
    (hrun' : s.runCommand fuel' nrTokens tokens = result') (hout : result ≠ .error .outOfFuel)
    (hout' : result' ≠ .error .outOfFuel) : result = result' := by
  rcases runCommand_extends_add fuel fuel' s nrTokens tokens with hfault | hmore
  · exact absurd (hrun.symm.trans hfault) hout
  · rcases runCommand_extends_add fuel' fuel s nrTokens tokens with hfault | hmore'
    · exact absurd (hrun'.symm.trans hfault) hout'
    · rw [← hrun, ← hrun', hmore, hmore', Nat.add_comm]

/-! ## The commands -/

/-- A command that is run as an external program. -/
structure External (command : List Char) : Prop where
  not_exit : "exit".toList.isPrefixOf command = false
  not_prompt : command ≠ "prompt".toList
  not_cd : command ≠ "cd".toList
  not_for : command ≠ "for".toList
  not_timeout : command ≠ "timeout".toList

theorem command_cases (command : List Char) :
    "exit".toList.isPrefixOf command = true ∨ command = "prompt".toList ∨ command = "cd".toList ∨
      command = "for".toList ∨ command = "timeout".toList ∨ External command := by
  by_contra hnone
  simp only [not_or, Bool.not_eq_true] at hnone
  obtain ⟨hexit, hprompt, hcd, hfor, htimeout, hexternal⟩ := hnone
  exact hexternal ⟨hexit, hprompt, hcd, hfor, htimeout⟩

section Commands

variable {fuel : Nat} {s : Shell} {nrTokens : Int} {tokens : Nat}

theorem runCommand_exit {command : List Char} (hcommand : s.string tokens = .ok command)
    (hexit : "exit".toList.isPrefixOf command = true) :
    s.runCommand (fuel + 1) nrTokens tokens = do
      let name ← copyOut command
      return (0, { s with name }) := by
  rw [runCommand, hcommand, ok_bind]
  simp only [hexit, if_true]

theorem runCommand_prompt (hcommand : s.string tokens = .ok "prompt".toList) :
    s.runCommand (fuel + 1) nrTokens tokens = do
      let word ← s.string (tokens + 1)
      let prompt ← copyOut word
      return (1, { s with name := "prompt".toList, prompt }) := by
  rw [runCommand, hcommand]
  rfl

theorem runCommand_cd (hcommand : s.string tokens = .ok "cd".toList) :
    s.runCommand (fuel + 1) nrTokens tokens = do
      let path ← s.string (tokens + 1)
      return (1, { s with name := "cd".toList }.act
        (.chdir (if path = "~".toList then none else some path))) := by
  rw [runCommand, hcommand]
  rfl

theorem runCommand_for (hcommand : s.string tokens = .ok "for".toList) :
    s.runCommand (fuel + 1) nrTokens tokens = do
      let number ← s.string (tokens + 1)
      let third ← s.string (tokens + 3)
      if third = "for".toList then do
        let s ← repeatM (fun s => s.copyToken tokens (tokens + 2)) nrTokens.toNat
          { s with name := "for".toList }
        let s ← repeatM (fun s => Prod.snd <$> runCommand fuel s (nrTokens - 2) tokens)
          (atoi number).toNat s
        return (1, s)
      else do
        let s ← repeatM (fun s => Prod.snd <$> runCommand fuel s nrTokens (tokens + 2))
          (atoi number).toNat { s with name := "for".toList }
        return (1, s) := by
  rw [runCommand, hcommand]
  rfl

theorem runCommand_timeout (hcommand : s.string tokens = .ok "timeout".toList) :
    s.runCommand (fuel + 1) nrTokens tokens =
      if nrTokens = 1 then
        .ok (1, { s with name := "timeout".toList }.act (.showTimeout s.timeout))
      else do
        let number ← s.string (tokens + 1)
        return (1,
          { s with name := "timeout".toList }.setTimeout (atoi number % 2 ^ 32).toNat) := by
  rw [runCommand, hcommand]
  rfl

theorem runCommand_external {command : List Char} (hcommand : s.string tokens = .ok command)
    (hexternal : External command) :
    s.runCommand (fuel + 1) nrTokens tokens = do
      let name ← copyOut command
      let argv ← argv s.command (s.tokens.drop tokens)
      return (1, { s with name }.act (.launch argv)) := by
  rw [runCommand, hcommand, ok_bind]
  simp only [hexternal.not_exit, hexternal.not_prompt, hexternal.not_cd, hexternal.not_for,
    hexternal.not_timeout, Bool.false_eq_true, if_false]

end Commands

end Shell

end OperatingSystem
