import OperatingSystem.PagingMalloc
import OperatingSystem.LoaderCommands

/-!
# Traces

`__do_simulation` of `vm.c` reads its commands as text: it makes a line lowercase, splits it into
words, and dispatches on their number and on the first of them. Names have abbreviations, numbers
are read to the base that their prefix tells, and the flags of a page are the letters of a word.

Every line is an instruction, whatever the file holds: a line that is cut by `fgets`, that has a
terminator inside or that has too many words is one as well.
-/

namespace OperatingSystem.Paging

open OperatingSystem.Parser
open Loader (fgets strmatch toUnsigned content strmatch_eq)

set_option linter.style.nameCheck false

abbrev MAX_COMMAND_LEN : Nat := 4096

/-- What stops the simulator: the parser, or a command. -/
inductive Crash where
  | parser (fault : Parser.Fault)
  | paging (fault : Fault)
deriving DecidableEq, Repr

/-! ## The words of a command -/

/-- `tolower` of the C locale. -/
def tolower (c : Char) : Char :=
  if 'A' ≤ c ∧ c ≤ 'Z' then Char.ofNat (c.toNat + ('a'.toNat - 'A'.toNat)) else c

/-- The loop that makes a string lowercase, up to its terminator. -/
def makeLowercase : List Char → List Char
  | [] => []
  | c :: rest => if c = NUL then c :: rest else tolower c :: makeLowercase rest

/-- The value of a digit in the bases that have it. -/
def digitValue (c : Char) : Option Nat :=
  if '0' ≤ c ∧ c ≤ '9' then some (c.toNat - '0'.toNat)
  else if 'a' ≤ c ∧ c ≤ 'z' then some (c.toNat - 'a'.toNat + 10)
  else if 'A' ≤ c ∧ c ≤ 'Z' then some (c.toNat - 'A'.toNat + 10)
  else none

def isDigitOf (base : Nat) (c : Char) : Bool := (digitValue c).any fun value => value < base

/-- The number that the digits in front of a text make. -/
def leadingNumber (base : Nat) (text : List Char) : Nat :=
  (text.takeWhile (isDigitOf base)).foldl (fun n c => base * n + (digitValue c).getD 0) 0

/-- A number without its sign: hexadecimal behind `0x`, octal behind `0`, and else decimal. -/
def magnitude (text : List Char) : Nat :=
  match text with
  | '0' :: x :: rest =>
    if (x = 'x' ∨ x = 'X') ∧ rest.head?.any (isDigitOf 16) then leadingNumber 16 rest
    else leadingNumber 8 (x :: rest)
  | _ => leadingNumber 10 text

/-- `strtoimax` to base 0. -/
def strtoimax (nptr : List Char) : Int :=
  match nptr.dropWhile isspace with
  | '-' :: rest => max (-2 ^ 63) (-magnitude rest)
  | '+' :: rest => min LONG_MAX (magnitude rest)
  | rest => min LONG_MAX (magnitude rest)

/-- `__make_rwflag`. -/
def __makeRwflag (rw : List Char) : Nat :=
  rw.foldl (fun rwflag c =>
    let rwflag := if c = 'r' ∨ c = 'R' then rwflag ||| RW_READ else rwflag
    if c = 'w' ∨ c = 'W' then rwflag ||| RW_WRITE else rwflag) 0

/-! ## The loop -/

/-- How the body of the loop ends: the next line is read, or the loop is left. -/
inductive Next where
  | resume (reply : Option Reply) (vm : Vm Word)
  | leave (reply : Option Reply) (vm : Vm Word)

/-- A command whose result is not looked at. -/
def resumeWith (result : Except Fault (Reply × Vm Word)) : Except Crash Next := do
  let (reply, vm) ← result.mapError .paging
  return .resume (some reply) vm

/-- The body of the loop over the lines, for the tokens of a line. -/
def dispatch (fresh : Malloc) (vm : Vm Word) (parsed : Parsed) : Except Crash Next := do
  if parsed.nrTokens = 0 then return .resume none vm
  if parsed.nrTokens = 1 then
    let name ← (parsed.token 0).mapError .parser
    if strmatch name "exit".toList then return .leave none vm
    -- `show`, `pages`, `help` and `?` print, and so does the answer to an unknown command
    return .resume none vm
  else if parsed.nrTokens = 2 then
    let argument ← (parsed.token 1).mapError .parser
    let arg := toUnsigned (strtoimax argument)
    let name ← (parsed.token 0).mapError .parser
    if strmatch name "switch".toList || strmatch name "s".toList then
      resumeWith (execReply fresh vm (.switch arg))
    else if strmatch name "free".toList || strmatch name "f".toList then
      resumeWith (execReply fresh vm (.free arg))
    else if strmatch name "read".toList || strmatch name "r".toList then
      resumeWith (execReply fresh vm (.read arg))
    else if strmatch name "write".toList || strmatch name "w".toList then
      resumeWith (execReply fresh vm (.write arg))
    else return .resume none vm
  else if parsed.nrTokens = 3 then
    let argument ← (parsed.token 1).mapError .parser
    let vpn := toUnsigned (strtoimax argument)
    let flags ← (parsed.token 2).mapError .parser
    let rw := __makeRwflag flags
    let name ← (parsed.token 0).mapError .parser
    if strmatch name "alloc".toList || strmatch name "a".toList then
      let (reply, vm) ← (execReply fresh vm (.alloc vpn rw)).mapError .paging
      if !reply.success then return .leave (some reply) vm
      return .resume (some reply) vm
    else if strmatch name "access".toList then
      resumeWith (execReply fresh vm (.access vpn rw))
    else return .resume none vm
  else throw (.paging .assertion)

/-- The body of the loop for a line that has been read. -/
def simulateLine (fresh : Malloc) (vm : Vm Word) (line : List Char) : Except Crash Next := do
  let command := makeLowercase (line ++ [NUL])
  let (_, parsed) ← (parseCommand command (List.replicate MAX_NR_TOKENS none)).mapError .parser
  dispatch fresh vm parsed

/-- What a session shows: its replies, what stopped it if it was stopped, and its last state. -/
structure Session where
  replies : List Reply
  crash : Option Crash
  vm : Vm Word

/-- The session after a reply. -/
def Session.after (reply : Option Reply) (session : Session) : Session :=
  { session with replies := reply.toList ++ session.replies }

/-- The loop over the lines; `contents n` is what `malloc` leaves to line `n`. -/
def simulateLines (contents : Nat → Malloc) (vm : Vm Word) : List (List Char) → Session
  | [] => ⟨[], none, vm⟩
  | line :: rest =>
    match simulateLine (contents 0) vm line with
    | .error crash => ⟨[], some crash, vm⟩
    | .ok (.leave reply vm) => ⟨reply.toList, none, vm⟩
    | .ok (.resume reply vm) => (simulateLines (fun n => contents (n + 1)) vm rest).after reply

/-- `__do_simulation`, for the contents of the input. -/
def __doSimulationOf (contents : Nat → Malloc) (input : List Char) : Session :=
  simulateLines contents .init (fgets MAX_COMMAND_LEN [] input)

/-! ## Instructions -/

/-- What a line asks for. -/
inductive Instruction where
  /-- nothing but output -/
  | quiet
  | exit
  | run (command : Command)
  /-- the number of words is wrong -/
  | malformed
  /-- there are more words than places for tokens -/
  | overfull
deriving DecidableEq, Repr

def Instruction.ofTwo (name argument : List Char) : Instruction :=
  let arg := toUnsigned (strtoimax argument)
  if name = "switch".toList ∨ name = "s".toList then .run (.switch arg)
  else if name = "free".toList ∨ name = "f".toList then .run (.free arg)
  else if name = "read".toList ∨ name = "r".toList then .run (.read arg)
  else if name = "write".toList ∨ name = "w".toList then .run (.write arg)
  else .quiet

def Instruction.ofThree (name argument flags : List Char) : Instruction :=
  let vpn := toUnsigned (strtoimax argument)
  if name = "alloc".toList ∨ name = "a".toList then .run (.alloc vpn (__makeRwflag flags))
  else if name = "access".toList then .run (.access vpn (__makeRwflag flags))
  else .quiet

/-- The instruction of the words before the comment of a line. -/
def Instruction.of : List (List Char) → Instruction
  | [] => .quiet
  | [name] => if name = "exit".toList then .exit else .quiet
  | [name, argument] => .ofTwo name argument
  | [name, argument, flags] => .ofThree name argument flags
  | _ => .malformed

/-- The string that a line holds, in lowercase. -/
def lowercase (line : List Char) : List Char := (line.takeWhile fun c => c ≠ NUL).map tolower

def Instruction.ofLine (line : List Char) : Instruction :=
  if (words isspace (lowercase line)).length ≤ MAX_NR_TOKENS then .of (content (lowercase line))
  else .overfull

def Instruction.perform (fresh : Malloc) (vm : Vm Word) : Instruction → Except Crash Next
  | .quiet => .ok (.resume none vm)
  | .exit => .ok (.leave none vm)
  | .run command => do
    let (reply, vm) ← (execReply fresh vm command).mapError .paging
    return if command.breaks reply then .leave (some reply) vm else .resume (some reply) vm
  | .malformed => .error (.paging .assertion)
  | .overfull => .error (.parser .outOfBounds)

/-- A session of instructions. -/
def runInstructions (contents : Nat → Malloc) (vm : Vm Word) : List Instruction → Session
  | [] => ⟨[], none, vm⟩
  | instruction :: rest =>
    match instruction.perform (contents 0) vm with
    | .error crash => ⟨[], some crash, vm⟩
    | .ok (.leave reply vm) => ⟨reply.toList, none, vm⟩
    | .ok (.resume reply vm) => (runInstructions (fun n => contents (n + 1)) vm rest).after reply

/-! ## The tokens of a line -/

/-- A command that does not break the loop. -/
theorem perform_run (fresh : Malloc) (vm : Vm Word) {command : Command}
    (hresumes : ∀ reply, command.breaks reply = false) :
    (Instruction.run command).perform fresh vm = resumeWith (execReply fresh vm command) := by
  simp only [Instruction.perform, hresumes, Bool.false_eq_true, if_false]
  rfl

/-- `if (!__alloc_page(vpn, rw)) break;` -/
theorem perform_alloc (fresh : Malloc) (vm : Vm Word) (vpn rw : Nat) :
    (Instruction.run (.alloc vpn rw)).perform fresh vm = (do
      let (reply, vm) ← (execReply fresh vm (.alloc vpn rw)).mapError .paging
      if !reply.success then return .leave (some reply) vm
      return .resume (some reply) vm) := by
  rw [Instruction.perform]
  rcases execReply fresh vm (.alloc vpn rw) with fault | ⟨⟨_ | _, pfn⟩, next⟩ <;> rfl

section Tokens

variable {parsed : Parsed} {words : List (List Char)} (hstrings : parsed.strings = words.map some)
include hstrings

/-- The tokens of a line are its instruction. -/
theorem dispatch_eq (hcount : parsed.nrTokens = words.length) (fresh : Malloc) (vm : Vm Word) :
    dispatch fresh vm parsed = (Instruction.of words).perform fresh vm := by
  rw [dispatch, hcount]
  match words, hstrings with
  | [], _ => rfl
  | [name], hstrings =>
      have hname := Parsed.token_eq hstrings (i := 0) rfl
      rw [if_neg (by simp), if_pos (show [name].length = 1 from rfl), hname]
      simp only [ok_mapError, ok_bind, Instruction.of, strmatch_eq, decide_eq_true_eq]
      split_ifs <;> rfl
  | [name, argument], hstrings =>
      have hname := Parsed.token_eq hstrings (i := 0) rfl
      have hargument := Parsed.token_eq hstrings (i := 1) rfl
      rw [if_neg (by simp), if_neg (by simp), if_pos (show [name, argument].length = 2 from rfl),
        hname, hargument]
      simp only [ok_mapError, ok_bind, Instruction.of, Instruction.ofTwo, strmatch_eq,
        Bool.or_eq_true, decide_eq_true_eq]
      split_ifs
      · exact (perform_run fresh vm fun _ => rfl).symm
      · exact (perform_run fresh vm fun _ => rfl).symm
      · exact (perform_run fresh vm fun _ => rfl).symm
      · exact (perform_run fresh vm fun _ => rfl).symm
      · rfl
  | [name, argument, flags], hstrings =>
      have hname := Parsed.token_eq hstrings (i := 0) rfl
      have hargument := Parsed.token_eq hstrings (i := 1) rfl
      have hflags := Parsed.token_eq hstrings (i := 2) rfl
      rw [if_neg (by simp), if_neg (by simp), if_neg (by simp),
        if_pos (show [name, argument, flags].length = 3 from rfl), hname, hargument, hflags]
      simp only [ok_mapError, ok_bind, Instruction.of, Instruction.ofThree, strmatch_eq,
        Bool.or_eq_true, decide_eq_true_eq]
      split_ifs
      · exact (perform_alloc fresh vm _ _).symm
      · exact (perform_run fresh vm fun _ => rfl).symm
      · rfl
  | _ :: _ :: _ :: _ :: rest, _ =>
      rw [if_neg (by simp), if_neg (by simp), if_neg (by simp), if_neg (by simp)]
      rfl

end Tokens

/-! ## The string of a line -/

theorem tolower_ne_nul {c : Char} (hc : c ≠ NUL) : tolower c ≠ NUL := by
  rw [tolower]
  split_ifs with hupper
  · have hletters : ∀ n < 26, Char.ofNat (n + 97) ≠ NUL := by decide
    have hrange : 65 ≤ c.toNat ∧ c.toNat ≤ 90 := hupper
    have hletter := hletters (c.toNat - 65) (by omega)
    rwa [show c.toNat - 65 + 97 = c.toNat + ('a'.toNat - 'A'.toNat) from
      (by omega : c.toNat - 65 + 97 = c.toNat + 32)] at hletter
  · exact hc

theorem makeLowercase_string {text : List Char} (htext : NUL ∉ text) (after : List Char) :
    makeLowercase (text ++ NUL :: after) = text.map tolower ++ NUL :: after := by
  induction text with
  | nil => rfl
  | cons c text ih =>
      rw [List.mem_cons, not_or] at htext
      rw [List.cons_append, makeLowercase, if_neg (Ne.symm htext.1), ih htext.2, List.map_cons,
        List.cons_append]

/-- A line in memory is its string, a terminator, and what is left behind it. -/
theorem line_split (line : List Char) : ∃ after,
    makeLowercase (line ++ [NUL]) = lowercase line ++ NUL :: after ∧ NUL ∉ lowercase line := by
  have hstring : NUL ∉ line.takeWhile fun c => c ≠ NUL := fun hmem => by
    simpa using List.mem_takeWhile_imp hmem
  have hlower : NUL ∉ lowercase line := by
    intro hmem
    obtain ⟨c, hc, hnul⟩ := List.mem_map.mp hmem
    exact tolower_ne_nul (by simpa using List.mem_takeWhile_imp hc) hnul
  have hsplit := List.takeWhile_append_dropWhile (p := fun c => decide (c ≠ NUL)) (l := line)
  cases hrest : line.dropWhile fun c => c ≠ NUL with
  | nil =>
      rw [hrest, List.append_nil] at hsplit
      refine ⟨[], ?_, hlower⟩
      rw [lowercase, hsplit]
      exact makeLowercase_string (hsplit ▸ hstring) []
  | cons c rest =>
      have hc : c = NUL := by
        have hhead := List.head?_dropWhile_not (fun c => decide (c ≠ NUL)) line
        rw [hrest] at hhead
        simpa using hhead
      subst hc
      rw [hrest] at hsplit
      refine ⟨rest ++ [NUL], ?_, hlower⟩
      calc makeLowercase (line ++ [NUL])
          = makeLowercase (line.takeWhile (fun c => c ≠ NUL) ++ NUL :: (rest ++ [NUL])) := by
            conv_lhs => rw [← hsplit, List.append_assoc, List.cons_append]
        _ = lowercase line ++ NUL :: (rest ++ [NUL]) := makeLowercase_string hstring _

/-- A line is its instruction, whatever it holds. -/
theorem simulateLine_eq (fresh : Malloc) (vm : Vm Word) (line : List Char) :
    simulateLine fresh vm line = (Instruction.ofLine line).perform fresh vm := by
  obtain ⟨after, hmemory, htext⟩ := line_split line
  simp only [simulateLine, hmemory]
  have hlength : (List.replicate (α := Option Nat) MAX_NR_TOKENS none).length = MAX_NR_TOKENS :=
    List.length_replicate
  rw [Instruction.ofLine]
  by_cases hfits : (words isspace (lowercase line)).length ≤ MAX_NR_TOKENS
  · obtain ⟨parsed, hparse, hstrings, hcount, -⟩ :=
      tokens_are_words htext after (hlength.symm ▸ hfits)
    have hnr : parsed.nrTokens = (content (lowercase line)).length := by
      rw [hcount, hstrings, List.length_map, content]
    rw [hparse, if_pos hfits]
    exact dispatch_eq hstrings hnr fresh vm
  · have hoverfull := scan_overfull false 0 htext after
      (p := ⟨lowercase line ++ NUL :: after, 0, List.replicate MAX_NR_TOKENS none⟩)
      (by rw [wordStarts_length, hlength]; omega) (Nat.zero_le _)
    rw [parseCommand, hoverfull, if_neg hfits]
    rfl

/-- **A trace is a list of instructions.** -/
theorem simulateLines_eq (contents : Nat → Malloc) (vm : Vm Word) (lines : List (List Char)) :
    simulateLines contents vm lines =
      runInstructions contents vm (lines.map Instruction.ofLine) := by
  induction lines generalizing contents vm with
  | nil => rfl
  | cons line lines ih =>
      rw [simulateLines, List.map_cons, runInstructions, simulateLine_eq]
      rcases (Instruction.ofLine line).perform (contents 0) vm with _ | ⟨_ | _⟩
      · rfl
      · exact congrArg (Session.after _) (ih _ _)
      · rfl

end OperatingSystem.Paging
