import OperatingSystem.Loader

/-!
# The commands of a script

What the loader does with a line depends on the words before its comment only. A line is one of
six commands, and a script is the list of its commands.
-/

namespace OperatingSystem.Loader

open OperatingSystem.Parser

set_option linter.style.nameCheck false

/-- What a line asks to write to the process under construction. -/
inductive Property where
  | lifespan (n : Int)
  | prio (n : Int)
  | start (n : Int)
  | acquire (rs : ResourceSchedule)
deriving DecidableEq, Repr

def Property.write : Property → Process → Process
  | .lifespan n, p => p.setLifespan n
  | .prio n, p => p.setPrio n
  | .start n, p => p.setStart n
  | .acquire rs, p => p.addAcquire rs

/-- What a line asks for. -/
inductive Command where
  | blank
  | process (pid : Nat)
  | close
  | property (property : Property)
  /-- the number of words is wrong -/
  | malformed
  | unknown
deriving DecidableEq, Repr

def Command.withOne (f : List Char → Command) : List (List Char) → Command
  | [number] => f number
  | _ => .malformed

def Command.withThree (f : List Char → List Char → List Char → Command) :
    List (List Char) → Command
  | [first, second, third] => f first second third
  | _ => .malformed

/-- The command of the words before the comment of a line. -/
def Command.of : List (List Char) → Command
  | [] => .blank
  | name :: arguments =>
    if name = "process".toList then
      withOne (fun number => .process (toUnsigned (atoi number))) arguments
    else if name = "end".toList then .close
    else if name = "lifespan".toList then
      withOne (fun number => .property (.lifespan (atoi number))) arguments
    else if name = "prio".toList then
      withOne (fun number => .property (.prio (atoi number))) arguments
    else if name = "start".toList then
      withOne (fun number => .property (.start (atoi number))) arguments
    else if name = "acquire".toList then
      withThree (fun resourceId atAge duration =>
        .property (.acquire ⟨atoi resourceId, atoi atAge, atoi duration⟩)) arguments
    else .unknown

def execute (s : Loading) : Command → Except Fault (Option Loading)
  | .blank => .ok (some s)
  | .process pid => .ok (some { s with p := some { Process.zeroed with pid } })
  | .close =>
    match s.p with
    | none => .error .assertion
    | some p => .ok (some ⟨none, s.forkqueue ++ [p]⟩)
  | .property property => some <$> s.write property.write
  | .malformed => .error .assertion
  | .unknown => .ok none

def executeAll : List Command → Loading → Except Fault (Bool × Loading)
  | [], s => .ok (true, s)
  | command :: rest, s => do
    match ← execute s command with
    | none => return (false, s)
    | some s => executeAll rest s

/-! ## The tokens of a line -/

theorem strmatch_eq (str expect : List Char) : strmatch str expect = decide (str = expect) := by
  rw [strmatch, decide_eq_decide]
  constructor
  · rintro ⟨hlength, htake⟩
    rwa [List.take_of_length_le hlength.le] at htake
  · rintro rfl
    exact ⟨rfl, List.take_length⟩

section Tokens

variable {parsed : Parsed} {content : List (List Char)}
  (hstrings : parsed.strings = content.map some) (hcount : parsed.nrTokens = content.length)
include hstrings hcount

variable {name : List Char} {arguments : List (List Char)}
  (hcontent : content = name :: arguments) {s : Loading}
include hcontent

/-- The check of the number of tokens, and the reading of the argument. -/
theorem one_argument {next : List Char → Except Fault (Option Loading)} {f : List Char → Command}
    (hnext : ∀ number, next number = execute s (f number)) :
    (do assert (parsed.nrTokens = 2)
        let number ← (parsed.token 1).mapError .parser
        next number) = execute s (.withOne f arguments) := by
  subst hcontent
  rw [hcount]
  match arguments, hstrings with
  | [], _ => rfl
  | [number], hstrings =>
      rw [Parsed.token_eq hstrings (i := 1) rfl, Command.withOne, ← hnext]
      rfl
  | _ :: _ :: _, _ => rfl

theorem three_arguments {next : List Char → List Char → List Char → Except Fault (Option Loading)}
    {f : List Char → List Char → List Char → Command}
    (hnext : ∀ first second third, next first second third = execute s (f first second third)) :
    (do assert (parsed.nrTokens = 4)
        let first ← (parsed.token 1).mapError .parser
        let second ← (parsed.token 2).mapError .parser
        let third ← (parsed.token 3).mapError .parser
        next first second third) = execute s (.withThree f arguments) := by
  subst hcontent
  rw [hcount]
  match arguments, hstrings with
  | [], _ => rfl
  | [_], _ => rfl
  | [_, _], _ => rfl
  | [first, second, third], hstrings =>
      rw [Parsed.token_eq hstrings (i := 1) rfl, Parsed.token_eq hstrings (i := 2) rfl,
        Parsed.token_eq hstrings (i := 3) rfl, Command.withThree, ← hnext]
      rfl
  | _ :: _ :: _ :: _ :: _, _ => rfl

omit hcontent in
/-- A line is its command. -/
theorem loadLine_eq (s : Loading) : loadLine s parsed = execute s (.of content) := by
  cases hcontent : content with
  | nil =>
      rw [hcontent, List.length_nil] at hcount
      rw [loadLine, if_pos hcount]
      rfl
  | cons name arguments =>
      have hname := Parsed.token_eq hstrings (show content[0]? = some name by rw [hcontent]; rfl)
      have hne : parsed.nrTokens ≠ 0 := by
        rw [hcount, hcontent]
        exact Nat.succ_ne_zero _
      rw [loadLine, if_neg hne, hname, ok_mapError, ok_bind, Command.of]
      simp only [strmatch_eq, decide_eq_true_eq]
      split_ifs
      · exact one_argument hstrings hcount hcontent fun _ => rfl
      · cases hp : s.p with
        | none => simp only [execute, hp]
        | some p =>
            simp only [execute, hp]
            rfl
      · exact one_argument hstrings hcount hcontent fun _ => rfl
      · exact one_argument hstrings hcount hcontent fun _ => rfl
      · exact one_argument hstrings hcount hcontent fun _ => rfl
      · exact three_arguments hstrings hcount hcontent fun _ _ _ => rfl
      · rfl

end Tokens

/-! ## The lines of a script -/

/-- The words before the comment of a line. -/
def content (text : List Char) : List (List Char) :=
  (words isspace text).takeWhile fun word => word.head? ≠ some '#'

/-- The loop over lines that the parser can take. -/
theorem loadLines_eq {texts : List (List Char)}
    (htexts : ∀ text ∈ texts, NUL ∉ text ∧ (words isspace text).length ≤ 32) (s : Loading) :
    loadLines texts s = executeAll (texts.map fun text => .of (content text)) s := by
  induction texts generalizing s with
  | nil => rfl
  | cons text texts ih =>
      obtain ⟨⟨htext, hfits⟩, hrest⟩ := List.forall_mem_cons.mp htexts
      have hlength : (words isspace text).length ≤
          (List.replicate (α := Option Nat) 32 none).length := by
        simpa using hfits
      obtain ⟨parsed, hparse, hstrings, hcount, -⟩ := tokens_are_words htext [] hlength
      have hnr : parsed.nrTokens = (content text).length := by
        rw [hcount, hstrings, List.length_map, content]
      have hline := loadLine_eq hstrings hnr s
      rw [loadLines, hparse, List.map_cons, executeAll]
      change (loadLine s parsed >>= _) = _
      rw [hline]
      refine congrArg (execute s (.of (content text)) >>= ·) (funext fun next => ?_)
      cases next with
      | none => rfl
      | some s => exact ih hrest s

/-- A character that neither ends a line nor fills the buffer. -/
theorem fgets_character (size : Nat) {c : Char} (hc : c ≠ '\n') {before : List Char}
    (hshort : before.length + 1 < size - 1) (file : List Char) :
    fgets size before (c :: file) = fgets size (before ++ [c]) file := by
  have hlength : (before ++ [c]).length = before.length + 1 := by simp
  have hmore : ¬ (c = '\n' ∨ (before ++ [c]).length = size - 1) := by
    rw [hlength, not_or]
    exact ⟨hc, hshort.ne⟩
  rw [fgets]
  exact if_neg hmore

theorem fgets_characters (size : Nat) {line : List Char} (hplain : '\n' ∉ line)
    {before : List Char} (hshort : before.length + line.length < size - 1) (file : List Char) :
    fgets size before (line ++ file) = fgets size (before ++ line) file := by
  induction line generalizing before with
  | nil => rw [List.nil_append, List.append_nil]
  | cons c line ih =>
      rw [List.mem_cons, not_or] at hplain
      rw [List.length_cons] at hshort
      have hnext : (before ++ [c]).length + line.length < size - 1 := by
        rw [List.length_append, List.length_singleton]
        omega
      rw [List.cons_append, fgets_character size (Ne.symm hplain.1) (by omega), ih hplain.2 hnext,
        List.append_assoc, List.singleton_append]

/-- A line that `fgets` reads as a whole. -/
theorem fgets_line (size : Nat) {line : List Char} (hplain : '\n' ∉ line)
    (hshort : line.length < size - 1) (file : List Char) :
    fgets size [] (line ++ '\n' :: file) = (line ++ ['\n']) :: fgets size [] file := by
  rw [fgets_characters size hplain (by rwa [List.length_nil, Nat.zero_add]), List.nil_append,
    fgets]
  exact if_pos (.inl rfl)

/-- What is left of the file after its last newline. -/
theorem fgets_last {line : List Char} (hplain : '\n' ∉ line) (hshort : line.length < 255) :
    fgets 256 [] line = if line = [] then [] else [line] := by
  have hread := fgets_characters 256 hplain
    (show ([] : List Char).length + line.length < 255 by rwa [List.length_nil, Nat.zero_add]) []
  rw [List.append_nil, List.nil_append] at hread
  rw [hread, fgets]

/-- A line of a script, without the newline at its end. -/
structure Line where
  chars : List Char
  plain : ∀ c ∈ chars, c ≠ NUL ∧ c ≠ '\n'
  short : chars.length < 255
  few : (words isspace chars).length ≤ 32

/-- A line, if it is one. -/
def Line.of (chars : List Char)
    (hline : chars.all (fun c => c ≠ NUL ∧ c ≠ '\n') ∧ chars.length < 255 ∧
      (words isspace chars).length ≤ 32) : Line :=
  ⟨chars, by simpa using hline.1, hline.2.1, hline.2.2⟩

def Line.empty : Line := .of [] (by decide)

/-- A script: the lines that a newline ends, and what is behind the last newline. -/
structure Script where
  lines : List Line
  last : Line

def Script.text (script : Script) : List Char :=
  (script.lines.flatMap fun line => line.chars ++ ['\n']) ++ script.last.chars

/-- The words of each line before its comment. -/
def Script.contents (script : Script) : List (List (List Char)) :=
  (script.lines ++ [script.last]).map fun line => content line.chars

def Script.commands (script : Script) : List Command := script.contents.map .of

theorem content_newline (text : List Char) : content (text ++ ['\n']) = content text := by
  have hnewline : isspace '\n' = true := by decide
  have hsplit := words_append_sep hnewline text []
  rw [words_nil, List.append_nil] at hsplit
  rw [content, hsplit, content]

/-- Blank lines do not count. -/
theorem executeAll_filter (commands : List Command) (s : Loading) :
    executeAll (commands.filter fun command => command ≠ .blank) s = executeAll commands s := by
  induction commands generalizing s with
  | nil => rfl
  | cons command commands ih =>
      by_cases hblank : command = .blank
      · subst hblank
        exact ih s
      · rw [List.filter_cons_of_pos (by simpa using hblank), executeAll, executeAll]
        refine congrArg (execute s command >>= ·) (funext fun next => ?_)
        cases next with
        | none => rfl
        | some s => exact ih s

theorem fgets_text (lines : List Line) (last : Line) :
    fgets 256 [] ((lines.flatMap fun line => line.chars ++ ['\n']) ++ last.chars) =
      (lines.map fun line => line.chars ++ ['\n']) ++
        if last.chars = [] then [] else [last.chars] := by
  have hplain : ∀ line : Line, '\n' ∉ line.chars := fun line hmem => (line.plain _ hmem).2 rfl
  induction lines with
  | nil => exact fgets_last (hplain last) last.short
  | cons line lines ih =>
      have hline := fgets_line 256 (hplain line) line.short
        ((lines.flatMap fun line => line.chars ++ ['\n']) ++ last.chars)
      rw [List.flatMap_cons, List.append_assoc, List.append_assoc, List.singleton_append, hline, ih]
      rfl

/-- A script is loaded command by command. -/
theorem __loadScript_eq (script : Script) :
    __loadScript script.text = executeAll script.commands ⟨none, []⟩ := by
  have hplain : ∀ line : Line, NUL ∉ line.chars := fun line hmem => (line.plain _ hmem).1 rfl
  have hended : ∀ line : Line, NUL ∉ line.chars ++ ['\n'] ∧
      (words isspace (line.chars ++ ['\n'])).length ≤ 32 := by
    intro line
    have hnewline : isspace '\n' = true := by decide
    have hsplit := words_append_sep hnewline line.chars []
    rw [hsplit, words_nil, List.append_nil, List.mem_append, not_or]
    exact ⟨⟨hplain line, by decide⟩, line.few⟩
  have htexts : ∀ text ∈ (script.lines.map fun line => line.chars ++ ['\n']) ++
      (if script.last.chars = [] then [] else [script.last.chars]),
      NUL ∉ text ∧ (words isspace text).length ≤ 32 := by
    rw [List.forall_mem_append, List.forall_mem_map]
    refine ⟨fun line _ => hended line, fun text htext => ?_⟩
    split_ifs at htext
    · cases htext
    · rw [List.mem_singleton] at htext
      exact htext ▸ ⟨hplain script.last, script.last.few⟩
  rw [__loadScript, Script.text, fgets_text, loadLines_eq htexts, Script.commands, Script.contents,
    List.map_append, List.map_append, List.map_append, List.map_map, List.map_map,
    List.map_singleton, List.map_singleton]
  have hlines : ((fun text => Command.of (content text)) ∘
      fun line : Line => line.chars ++ ['\n']) =
        Command.of ∘ fun line : Line => content line.chars :=
    funext fun line => congrArg Command.of (content_newline line.chars)
  rw [hlines]
  split_ifs with hempty
  · have hblank : Command.of (content script.last.chars) = .blank := by
      rw [hempty]
      rfl
    rw [hblank, ← executeAll_filter (_ ++ [_]), List.filter_append,
      List.filter_cons_of_neg (by simp), List.filter_nil, List.append_nil, executeAll_filter,
      List.map_nil, List.append_nil]
  · rfl

end OperatingSystem.Loader
