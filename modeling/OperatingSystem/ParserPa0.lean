import OperatingSystem.Parser
import OperatingSystem.Quotes

/-!
# The command parser of PA0

It copies each token of a command into a block of its own. A quotation counts as part of the word
around it: the three loops look for the terminator between words, for whitespace in a word and for
a mark of quotation in a quotation, and they keep the length of the word less one for each
quotation in it. The blocks are stored in an array of `main`, whose size the parser does not know.
-/

namespace OperatingSystem.Parser.Pa0

/-- What the parser must not do: read a character outside of the command and its terminator,
write behind a block, and store a block behind the array of `main`. -/
inductive Fault where
  | outOfCommand
  | outOfBlock
  | outOfTokens
deriving DecidableEq, Repr

/-- A block of `malloc`; what has not been written is unknown. -/
abbrev Block := List (Option Char)

def isQuote (c : Char) : Bool := c = '"'

/-- The locals `num` and `t_num`, and the block at `tokens[j]`. -/
structure Token where
  num : Nat
  tNum : Nat
  block : Block
deriving DecidableEq, Repr

/-- The locals at the start of a word. -/
def Token.start : Token := ⟨0, 0, []⟩

/-- The branch for a character of a word. -/
def Token.addCharacter (t : Token) : Token :=
  let num := t.num + 1
  ⟨num, num, (List.replicate (num + 1) none).set num (some NUL)⟩

/-- The end of the branch for a quotation. -/
def Token.closeQuotation (num : Nat) : Token :=
  let num := num + 1
  ⟨num, num - 1, (List.replicate num none).set (num - 1) (some NUL)⟩

/-- `command[(i - num)]`. -/
def readBack (command : List Char) (i num : Nat) : Except Fault Char :=
  match if num ≤ i then command[i - num]? else none with
  | some c => .ok c
  | none => .error .outOfCommand

/-- A turn of the loop that copies a word, which ends before `i`, into its block. -/
def copyCharacter (command : List Char) (i : Nat) :
    Block × Nat → Nat → Except Fault (Block × Nat)
  | (block, num), k => do
    let c ← readBack command i num
    if k < block.length then .ok (block.set k (some c), num - 1) else .error .outOfBlock

def Token.copy (command : List Char) (i : Nat) (t : Token) : Except Fault Block := do
  let (block, _) ← (List.range t.tNum).foldlM (copyCharacter command i) (t.block, t.num)
  return block

/-- The loop that looks at the next character. -/
inductive Mode where
  /-- `while (command[i] != '\0')` -/
  | between
  /-- `for (; !isspace(command[i]); i++)` -/
  | word (t : Token)
  /-- `for (; command[i] != '\"'; i++)` -/
  | quotation (num : Nat)
deriving DecidableEq, Repr

/-- `tokens[j] = (char*)malloc(...)`, where `tokens` lists the blocks at `tokens[0]` up to
`tokens[j - 1]`: the block of a word is stored anew for each of its characters. -/
def storeBlock (tokens : List Block) (t : Token) : Except Fault Mode :=
  if tokens.length < MAX_NR_TOKENS then .ok (.word t) else .error .outOfTokens

/-- The loop after a character of a word. -/
def Mode.after (tokens : List Block) (t : Token) (c : Char) : Except Fault Mode :=
  if isQuote c then .ok (.quotation t.num) else storeBlock tokens t.addCharacter

/-- The three loops. The fourth argument is the command from `i` on, up to its terminator, and the
last one lists the blocks at `tokens[0]` up to `tokens[j - 1]`. -/
def scan (command : List Char) : Mode → Nat → List Char → List Block → Except Fault (List Block)
  | _, _, [], _ => .error .outOfCommand
  | .between, i, c :: rest, tokens =>
    if c = NUL then .ok tokens
    else if isspace c then scan command .between (i + 1) rest tokens
    else do
      let mode ← Mode.after tokens .start c
      scan command mode (i + 1) rest tokens
  | .word t, i, c :: rest, tokens =>
    if isspace c then do
      let block ← t.copy command i
      scan command .between (i + 1) rest (tokens ++ [block])
    else do
      let mode ← Mode.after tokens t c
      scan command mode (i + 1) rest tokens
  | .quotation num, i, c :: rest, tokens =>
    if isQuote c then do
      let mode ← storeBlock tokens (.closeQuotation num)
      scan command mode (i + 1) rest tokens
    else scan command (.quotation (num + 1)) (i + 1) rest tokens

/-- `parse_command`, for a command with its terminator and the array of `main`. It sets
`*nr_tokens` to the number of tokens. -/
def parseCommand (command : List Char) : Except Fault (List Block) :=
  scan command .between 0 command []

/-- A string in a block of just its size. -/
def blockOf (text : List Char) : Block := text.map some ++ [some NUL]

/-! ## The copy -/

section Copy

variable (before after : List Char)

theorem copyCharacter_spec (copied : List Char) (c : Char) (rest : List Char) (free : Block)
    (num : Nat) :
    copyCharacter (before ++ (copied ++ c :: rest) ++ after) (before.length + copied.length + num)
        (copied.map some ++ none :: free, num) copied.length =
      .ok ((copied ++ [c]).map some ++ free, num - 1) := by
  have hread : readBack (before ++ (copied ++ c :: rest) ++ after)
      (before.length + copied.length + num) num = .ok c := by
    simp [readBack]
  have hset : (copied.map some ++ none :: free).set copied.length (some c) =
      (copied ++ [c]).map some ++ free := by simp
  rw [copyCharacter, hread, ok_bind, if_pos (by simp), hset]

/-- The loop that copies, over the characters that are left. -/
theorem copy_run (copied source : List Char) (free : Block) (num : Nat)
    (hnum : source.length ≤ num) :
    (List.range' copied.length source.length).foldlM
        (copyCharacter (before ++ (copied ++ source) ++ after)
          (before.length + copied.length + num))
        (copied.map some ++ (List.replicate source.length none ++ free), num) =
      .ok ((copied ++ source).map some ++ free, num - source.length) := by
  induction source generalizing copied num with
  | nil =>
      simp only [List.append_nil]
      rfl
  | cons c source ih =>
      rw [List.length_cons] at hnum
      have hsplit : copied ++ [c] ++ source = copied ++ c :: source := by simp
      have hnext := ih (copied ++ [c]) (num - 1) (by omega)
      have hplace : before.length + (copied ++ [c]).length + (num - 1) =
          before.length + copied.length + num := by
        rw [List.length_append, List.length_singleton]
        omega
      rw [hplace, hsplit, List.length_append, List.length_singleton] at hnext
      rw [List.length_cons, List.range'_succ, List.foldlM_cons, List.replicate_succ,
        List.cons_append, copyCharacter_spec before after copied c source, ok_bind,
        hnext, Nat.sub_sub, Nat.add_comm 1]

/-- The `t_num` characters from `num` places before `i` on are copied. -/
theorem copy_spec {source : List Char} {t : Token} (hsource : source.length = t.tNum)
    (hnum : t.tNum ≤ t.num) (hblock : t.block = List.replicate t.tNum none ++ [some NUL]) :
    t.copy (before ++ source ++ after) (before.length + t.num) = .ok (blockOf source) := by
  have hcopy := copy_run before after [] source [some NUL] t.num (by omega)
  rw [List.length_nil, List.map_nil, List.nil_append, List.nil_append, hsource, Nat.add_zero,
    ← List.range_eq_range'] at hcopy
  rw [Token.copy, hblock, hcopy]
  rfl

end Copy

/-! ## The state from the word that has been read -/

/-- The number of the quotations in a text that have ended. -/
def quotations (run : List Char) : Nat := run.countP isQuote / 2

/-- The locals after the characters of a word. -/
def Token.of (run : List Char) : Token :=
  let num := run.length - quotations run
  let tNum := if run.getLast? = some '"' then num - 1 else num
  ⟨num, tNum, List.replicate tNum none ++ [some NUL]⟩

@[simp] theorem Token.of_num (run : List Char) :
    (Token.of run).num = run.length - quotations run := rfl

/-- The loop in which the characters of a word have been read. -/
def modeOf (run : List Char) : Mode :=
  if run = [] then .between
  else if opened isQuote run then .quotation (run.length - quotations run - 1)
  else .word (.of run)

theorem isQuote_iff {c : Char} : isQuote c = true ↔ c = '"' := by simp [isQuote]

theorem opened_eq_false_iff (run : List Char) :
    opened isQuote run = false ↔ run.countP isQuote % 2 = 0 := by
  simp [opened]

theorem opened_snoc (run : List Char) (c : Char) :
    opened isQuote (run ++ [c]) = (opened isQuote run ^^ isQuote c) := by
  rw [opened_append, opened_singleton]

/-- A character that is no mark of quotation. -/
theorem quotations_snoc {c : Char} (hc : isQuote c = false) (run : List Char) :
    quotations (run ++ [c]) = quotations run := by
  simp [quotations, hc]

/-- A mark begins a quotation or ends one. -/
theorem quotations_mark {c : Char} (hc : isQuote c = true) (run : List Char) :
    quotations (run ++ [c]) = quotations run + if opened isQuote run then 1 else 0 := by
  simp only [quotations, opened, List.countP_append, List.countP_singleton, hc, if_true,
    decide_eq_true_eq]
  split_ifs
  · omega
  · omega

/-- There is a mark for each quotation, and one more if another has begun. -/
theorem quotations_lt {run : List Char} (hopened : opened isQuote run = true) :
    quotations run < run.length := by
  have hle : run.countP isQuote ≤ run.length := List.countP_le_length
  have hodd : run.countP isQuote % 2 = 1 := by simpa [opened] using hopened
  rw [quotations]
  omega

theorem quotations_le (run : List Char) : quotations run ≤ run.length := by
  have hle : run.countP isQuote ≤ run.length := List.countP_le_length
  rw [quotations]
  omega

theorem terminator_last (size : Nat) :
    (List.replicate (size + 1) none).set size (some NUL) =
      List.replicate size none ++ [some NUL] := by
  rw [List.replicate_succ', List.set_append_right _ _ (by simp)]
  simp

theorem storeBlock_room {tokens : List Block} (hroom : tokens.length < MAX_NR_TOKENS) (t : Token) :
    storeBlock tokens t = .ok (.word t) := if_pos hroom

/-- A character outside of the quotations. -/
theorem after_modeOf {tokens : List Block} (hroom : tokens.length < MAX_NR_TOKENS)
    {run : List Char} (hclosed : opened isQuote run = false) {t : Token}
    (hnum : t.num = run.length - quotations run) (c : Char) :
    Mode.after tokens t c = .ok (modeOf (run ++ [c])) := by
  have hle := quotations_le run
  have hne : run ++ [c] ≠ [] := by simp
  rw [Mode.after, storeBlock_room hroom, modeOf, if_neg hne, opened_snoc, hclosed, Bool.false_xor]
  cases hc : isQuote c with
  | true =>
      have hsame := quotations_mark hc run
      rw [hclosed, if_neg Bool.false_ne_true, Nat.add_zero] at hsame
      rw [if_pos rfl, if_pos rfl, hnum, hsame, List.length_append, List.length_singleton]
      congr 2
      omega
  | false =>
      have hlast : (run ++ [c]).getLast? ≠ some '"' := by
        rw [List.getLast?_concat]
        exact fun heq => by simp [isQuote, Option.some.inj heq] at hc
      have hlength : (run ++ [c]).length - quotations (run ++ [c]) = t.num + 1 := by
        rw [quotations_snoc hc, hnum, List.length_append, List.length_singleton]
        omega
      rw [if_neg Bool.false_ne_true, if_neg Bool.false_ne_true]
      simp only [Token.of, hlength, if_neg hlast, Token.addCharacter, terminator_last]

/-- A character in a quotation, or the mark that ends it. -/
theorem quotation_modeOf {run : List Char} (hopened : opened isQuote run = true) (c : Char) :
    (if isQuote c then Mode.word (.closeQuotation (run.length - quotations run - 1))
      else .quotation (run.length - quotations run - 1 + 1)) = modeOf (run ++ [c]) := by
  have hlt := quotations_lt hopened
  have hne : run ++ [c] ≠ [] := by simp
  rw [modeOf, if_neg hne, opened_snoc, hopened, Bool.true_xor]
  cases hc : isQuote c with
  | true =>
      have hone := quotations_mark hc run
      rw [hopened, if_pos rfl] at hone
      have hlast : (run ++ [c]).getLast? = some '"' := by
        rw [List.getLast?_concat, isQuote_iff.mp hc]
      have hlength : (run ++ [c]).length - quotations (run ++ [c]) =
          run.length - quotations run - 1 + 1 := by
        rw [hone, List.length_append, List.length_singleton]
        omega
      rw [if_pos rfl, Bool.not_true, if_neg Bool.false_ne_true]
      simp only [Token.of, hlength, if_pos hlast, Token.closeQuotation, Nat.add_sub_cancel,
        terminator_last]
  | false =>
      rw [quotations_snoc hc, if_neg Bool.false_ne_true, Bool.not_false, if_pos rfl,
        List.length_append, List.length_singleton]
      congr 1
      omega

/-! ## The scan -/

theorem not_space_of_quote {c : Char} (hspace : isspace c = true) : isQuote c = false := by
  cases hc : isQuote c with
  | false => rfl
  | true =>
      rw [isQuote_iff.mp hc] at hspace
      exact absurd hspace (by decide)

section Scan

variable (command : List Char) (i : Nat) (rest : List Char) (tokens : List Block)

/-- While there is room for another token. -/
theorem scan_character (hroom : tokens.length < MAX_NR_TOKENS) {run : List Char} {c : Char}
    (hc : c ≠ NUL) (hrun : Unbroken isspace isQuote (run ++ [c])) :
    scan command (modeOf run) i (c :: rest) tokens =
      scan command (modeOf (run ++ [c])) (i + 1) rest tokens := by
  have hspace := ((unbroken_snoc run c).mp hrun).2
  cases hopened : opened isQuote run with
  | true =>
      have hne : run ≠ [] := fun hnil => by simp [hnil] at hopened
      rw [modeOf, if_neg hne, hopened, if_pos rfl, scan, ← quotation_modeOf hopened,
        storeBlock_room hroom]
      split_ifs
      · rfl
      · rfl
  | false =>
      have hplain : isspace c = false := by
        cases hsep : isspace c with
        | false => rfl
        | true => exact absurd (hspace hsep) (by simp [hopened])
      by_cases hne : run = []
      · have hafter := after_modeOf hroom hopened (t := .start) (by simp [hne, Token.start]) c
        rw [hne] at hafter ⊢
        rw [modeOf, if_pos rfl, scan, if_neg hc, hplain, if_neg Bool.false_ne_true, hafter, ok_bind]
      · have hafter := after_modeOf hroom hopened (t := .of run) rfl c
        rw [modeOf, if_neg hne, hopened, if_neg Bool.false_ne_true, scan, hplain,
          if_neg Bool.false_ne_true, hafter, ok_bind]

/-- The characters of a word, or of a part of it. -/
theorem scan_run (run : List Char) {text : List Char}
    (hroom : text ≠ [] → tokens.length < MAX_NR_TOKENS) (htext : NUL ∉ text)
    (hrun : Unbroken isspace isQuote (run ++ text)) :
    scan command (modeOf run) i (text ++ rest) tokens =
      scan command (modeOf (run ++ text)) (i + text.length) rest tokens := by
  induction text generalizing run i with
  | nil => simp
  | cons c text ih =>
      rw [List.mem_cons, not_or] at htext
      have hsplit : run ++ c :: text = run ++ [c] ++ text := by simp
      have hroom := hroom (List.cons_ne_nil c text)
      rw [hsplit] at hrun ⊢
      rw [List.cons_append,
        scan_character command i _ tokens hroom (Ne.symm htext.1) hrun.of_append,
        ih _ _ (fun _ => hroom) htext.2 hrun, List.length_cons, Nat.add_assoc, Nat.add_comm 1]

/-- A full array: a quotation either has no end or is stored behind it. -/
theorem scan_quotation_full (hfull : MAX_NR_TOKENS ≤ tokens.length) (num : Nat) :
    ∃ fault, scan command (.quotation num) i rest tokens = .error fault := by
  induction rest generalizing i num with
  | nil => exact ⟨.outOfCommand, rfl⟩
  | cons c rest ih =>
      rw [scan, storeBlock, if_neg (Nat.not_lt.mpr hfull)]
      split_ifs
      · exact ⟨.outOfTokens, rfl⟩
      · exact ih (i + 1) (num + 1)

/-- Any other word is stored behind it at its first character. -/
theorem scan_full (hfull : MAX_NR_TOKENS ≤ tokens.length) {run : List Char} (hne : run ≠ [])
    (hnot : NUL ∉ run) (hrun : Unbroken isspace isQuote run) :
    ∃ fault, scan command .between i (run ++ rest) tokens = .error fault := by
  obtain ⟨c, run, rfl⟩ := List.exists_cons_of_ne_nil hne
  have hc : c ≠ NUL := fun heq => hnot (heq ▸ List.mem_cons_self)
  have hplain : isspace c = false := by
    rw [← List.singleton_append, ← List.nil_append [c]] at hrun
    have hspace := ((unbroken_snoc [] c).mp hrun.of_append).2
    cases hsep : isspace c with
    | false => rfl
    | true => exact absurd (hspace hsep) (by simp)
  rw [List.cons_append, scan, if_neg hc, hplain, if_neg Bool.false_ne_true, Mode.after, storeBlock,
    if_neg (Nat.not_lt.mpr hfull)]
  split_ifs
  · exact scan_quotation_full command (i + 1) (run ++ rest) tokens hfull _
  · exact ⟨.outOfTokens, rfl⟩

end Scan

/-- A word without the mark at its end. -/
def withoutLast (run : List Char) : List Char :=
  if run.getLast? = some '"' then run.dropLast else run

/-- What is copied of a word: not as many characters at its front as there are quotations in it,
and not the mark at its end. -/
def unquote (run : List Char) : List Char := (withoutLast run).drop (quotations run)

theorem withoutLast_append (run : List Char) : ∃ last, run = withoutLast run ++ last ∧
    last.length = if run.getLast? = some '"' then 1 else 0 := by
  by_cases hlast : run.getLast? = some '"'
  · rw [withoutLast, if_pos hlast, if_pos hlast]
    exact ⟨['"'], (List.dropLast_append_getLast? '"' hlast).symm, rfl⟩
  · rw [withoutLast, if_neg hlast, if_neg hlast]
    exact ⟨[], (List.append_nil run).symm, rfl⟩

theorem quotations_le_withoutLast (run : List Char) :
    quotations run ≤ (withoutLast run).length := by
  obtain ⟨last, hrun, hlength⟩ := withoutLast_append run
  have hcount : run.countP isQuote ≤ run.length := List.countP_le_length
  have hone : last.length ≤ 1 := by
    rw [hlength]
    split_ifs <;> simp
  have htotal := congrArg List.length hrun
  rw [List.length_append] at htotal
  rw [quotations]
  omega

/-- The blocks of the words of a text. -/
def blocksOf (text : List Char) : List Block :=
  (quotedWords isspace isQuote text).map fun word => blockOf (unquote word)

/-- The copy at the end of a word. -/
theorem copy_of (before after run : List Char) :
    (Token.of run).copy (before ++ run ++ after) (before.length + run.length) =
      .ok (blockOf (unquote run)) := by
  obtain ⟨last, hrun, hlast⟩ := withoutLast_append run
  have hle := quotations_le_withoutLast run
  let skipped := (withoutLast run).take (quotations run)
  have hskipped : skipped.length = quotations run := List.length_take_of_le hle
  have hlength : run.length = (withoutLast run).length + last.length := by
    rw [← List.length_append, ← hrun]
  have hcommand : before ++ run ++ after = before ++ skipped ++ unquote run ++ (last ++ after) := by
    conv_lhs => rw [hrun, ← List.take_append_drop (quotations run) (withoutLast run)]
    simp [skipped, unquote]
  have hplace : before.length + run.length = (before ++ skipped).length + (Token.of run).num := by
    rw [List.length_append, hskipped, Token.of_num]
    omega
  have hnum : (unquote run).length = (Token.of run).tNum := by
    rw [unquote, List.length_drop]
    simp only [Token.of]
    split_ifs at hlast ⊢ <;> omega
  rw [hcommand, hplace]
  refine copy_spec (before ++ skipped) (last ++ after) hnum ?_ rfl
  rw [← hnum, unquote, List.length_drop, Token.of_num]
  omega

section Scan

variable (before : List Char) {run : List Char}

/-- A separator ends a word, if one has been read. -/
theorem scan_separator {c : Char} (hspace : isspace c = true) (hclosed : opened isQuote run = false)
    (hrun : Unbroken isspace isQuote run) (rest : List Char) (tokens : List Block) :
    scan (before ++ run ++ c :: rest) (modeOf run) (before.length + run.length) (c :: rest) tokens =
      scan (before ++ run ++ c :: rest) .between (before.length + run.length + 1) rest
        (tokens ++ blocksOf run) := by
  have hc : c ≠ NUL := fun heq => by
    rw [heq] at hspace
    exact absurd hspace (by decide)
  by_cases hne : run = []
  · rw [modeOf, if_pos hne, scan, if_neg hc, if_pos hspace, hne, blocksOf, quotedWords_nil,
      List.map_nil, List.append_nil tokens]
  · rw [modeOf, if_neg hne, hclosed, if_neg Bool.false_ne_true, scan, if_pos hspace,
      copy_of before (c :: rest) run, ok_bind, blocksOf, quotedWords_of_unbroken hne hrun]
    rfl

/-- A word, if there is one, and the separator behind it. -/
theorem scan_word {c : Char} (hspace : isspace c = true) (hclosed : opened isQuote run = false)
    (hrun : Unbroken isspace isQuote run) (hnot : NUL ∉ run) {tokens : List Block}
    (hroom : run ≠ [] → tokens.length < MAX_NR_TOKENS) (rest : List Char) :
    scan (before ++ run ++ c :: rest) .between before.length (run ++ c :: rest) tokens =
      scan (before ++ run ++ c :: rest) .between (before.length + run.length + 1) rest
        (tokens ++ blocksOf run) := by
  have hscan := scan_run (before ++ run ++ c :: rest) before.length (c :: rest) tokens [] hroom
    hnot hrun
  rw [modeOf, if_pos rfl, List.nil_append] at hscan
  rw [hscan]
  exact scan_separator before hspace hclosed hrun rest tokens

end Scan

theorem blocksOf_split {run : List Char} (hclosed : opened isQuote run = false) {c : Char}
    (hspace : isspace c = true) (rest : List Char) :
    blocksOf (run ++ c :: rest) = blocksOf run ++ blocksOf rest := by
  rw [blocksOf, quotedWords_split (fun _ => not_space_of_quote) hclosed hspace, List.map_append]
  rfl

/-! ## The whole command -/

/-- The text ends between two words, if it is not empty, and outside of a quotation. -/
def Ends (text : List Char) : Prop :=
  (∀ c ∈ text.getLast?, isspace c = true) ∧ opened isQuote text = false

instance (text : List Char) : Decidable (Ends text) :=
  have : Decidable (∀ c ∈ text.getLast?, isspace c = true) := Option.decidableForallMem _
  inferInstanceAs (Decidable (_ ∧ opened isQuote text = false))

/-- A part of a word is no end. -/
theorem not_ends_of_unbroken {run : List Char} (hne : run ≠ [])
    (hrun : Unbroken isspace isQuote run) : ¬ Ends run := by
  rintro ⟨hlast, hclosed⟩
  have hsplit := List.dropLast_append_getLast hne
  have hspace := hlast _ (List.getLast?_eq_some_getLast hne)
  rw [← hsplit] at hrun hclosed
  rw [opened_snoc, not_space_of_quote hspace, Bool.xor_false] at hclosed
  have hopened := ((unbroken_snoc _ _).mp hrun).2 hspace
  rw [hclosed] at hopened
  cases hopened

theorem ends_split {run : List Char} {c : Char} (hclosed : opened isQuote run = false)
    (hspace : isspace c = true) (rest : List Char) : Ends (run ++ c :: rest) ↔ Ends rest := by
  have hopened : opened isQuote (run ++ c :: rest) = opened isQuote rest := by
    rw [← List.singleton_append, opened_append, opened_append, opened_singleton, hclosed,
      not_space_of_quote hspace, Bool.false_xor, Bool.false_xor]
  rw [Ends, Ends, hopened, List.getLast?_append_cons]
  cases rest with
  | nil => simp [hspace]
  | cons d rest => rw [List.getLast?_cons_cons]

/-- The parser ends in the text, and the array has room for the tokens that are left. -/
def Parses (tokens : List Block) (text : List Char) : Prop :=
  Ends text ∧ tokens.length + (quotedWords isspace isQuote text).length ≤ MAX_NR_TOKENS

instance (tokens : List Block) (text : List Char) : Decidable (Parses tokens text) :=
  inferInstanceAs (Decidable (_ ∧ _))

/-- A word, if there is one, and a separator in front of a text. -/
theorem parses_split {run : List Char} (hclosed : opened isQuote run = false) {c : Char}
    (hspace : isspace c = true) (tokens : List Block) (rest : List Char) :
    Parses tokens (run ++ c :: rest) ↔ Parses (tokens ++ blocksOf run) rest := by
  rw [Parses, Parses, quotedWords_split (fun _ => not_space_of_quote) hclosed hspace,
    ends_split hclosed hspace]
  simp only [blocksOf, List.length_append, List.length_map, Nat.add_assoc]

/-- Behind the part of a word that ends the text no character is left. -/
theorem scan_unbroken (command : List Char) (i : Nat) {text : List Char} (hne : text ≠ [])
    (htext : NUL ∉ text) (hrun : Unbroken isspace isQuote text) (tokens : List Block) :
    ∃ fault, scan command .between i (text ++ [NUL]) tokens = .error fault := by
  by_cases hroom : tokens.length < MAX_NR_TOKENS
  · have hscan := scan_run command i [NUL] tokens [] (fun _ => hroom) htext hrun
    rw [modeOf, if_pos rfl] at hscan
    rw [hscan, List.nil_append, modeOf, if_neg hne]
    split_ifs
    · exact ⟨.outOfCommand, rfl⟩
    · rw [scan, if_neg (by decide), Mode.after, if_neg (by decide), storeBlock_room hroom]
      exact ⟨.outOfCommand, rfl⟩
  · exact scan_full command i [NUL] tokens (Nat.not_lt.mp hroom) hne htext hrun

/-- The tokens are the words without what is not copied of them, if the command ends between two
words and outside of a quotation and the array has room for them. Else the parser leaves one of
the two. -/
theorem scan_command (before : List Char) {text : List Char} (htext : NUL ∉ text)
    {tokens : List Block} (hsize : tokens.length ≤ MAX_NR_TOKENS) :
    (Parses tokens text → scan (before ++ text ++ [NUL]) .between before.length (text ++ [NUL])
      tokens = .ok (tokens ++ blocksOf text)) ∧
    (¬ Parses tokens text → ∃ fault, scan (before ++ text ++ [NUL]) .between before.length
      (text ++ [NUL]) tokens = .error fault) := by
  generalize hlength : text.length = length
  induction length using Nat.strong_induction_on generalizing before text tokens with
  | _ length ih =>
      rcases unbroken_or_split isspace isQuote text with
        hrun | ⟨run, c, rest, rfl, hrun, hclosed, hspace⟩
      · rcases eq_or_ne text [] with rfl | hne
        · have hparses : Parses tokens [] := ⟨by decide, hsize⟩
          refine ⟨fun _ => ?_, fun hnot => absurd hparses hnot⟩
          rw [List.nil_append, scan, if_pos rfl, blocksOf, quotedWords_nil, List.map_nil,
            List.append_nil]
        · refine ⟨fun hparses => absurd hparses.1 (not_ends_of_unbroken hne hrun), fun _ => ?_⟩
          exact scan_unbroken _ _ hne htext hrun tokens
      · have hnot : NUL ∉ run ∧ NUL ∉ rest := by
          constructor
          · exact fun hmem => htext (List.mem_append_left _ hmem)
          · exact fun hmem => htext (List.mem_append_right _ (List.mem_cons_of_mem _ hmem))
        by_cases hroom : run ≠ [] → tokens.length < MAX_NR_TOKENS
        · have hlt : rest.length < length := by
            rw [← hlength, List.length_append, List.length_cons]
            omega
          have hnext : (tokens ++ blocksOf run).length ≤ MAX_NR_TOKENS := by
            rcases eq_or_ne run [] with rfl | hne
            · simpa [blocksOf] using hsize
            · rw [List.length_append, blocksOf, quotedWords_of_unbroken hne hrun]
              exact hroom hne
          have hword := scan_word before hspace hclosed hrun hnot.1 hroom (rest ++ [NUL])
          have hrest := ih rest.length hlt (before ++ run ++ [c]) hnot.2 hnext rfl
          have hcommand : before ++ run ++ [c] ++ rest ++ [NUL] =
              before ++ run ++ c :: (rest ++ [NUL]) := by simp
          have hplace : (before ++ run ++ [c]).length = before.length + run.length + 1 := by
            simp [Nat.add_assoc]
          rw [hcommand, hplace, ← hword] at hrest
          have hwhole : before ++ (run ++ c :: rest) ++ [NUL] =
              before ++ run ++ c :: (rest ++ [NUL]) := by simp
          rw [parses_split hclosed hspace, blocksOf_split hclosed hspace,
            ← List.append_assoc tokens, hwhole, List.append_assoc run, List.cons_append]
          exact hrest
        · rw [Classical.not_imp] at hroom
          obtain ⟨hne, hfull⟩ := hroom
          constructor
          · rintro ⟨-, hle⟩
            rw [quotedWords_split (fun _ => not_space_of_quote) hclosed hspace,
              quotedWords_of_unbroken hne hrun, List.length_append, List.length_singleton] at hle
            omega
          · intro _
            rw [List.append_assoc run, ← List.append_assoc]
            exact scan_full _ _ _ tokens (Nat.not_lt.mp hfull) hne hnot.1 hrun

/-- What `parse_command` does with a command. -/
theorem parseCommand_eq {text : List Char} (htext : NUL ∉ text) (hends : Ends text)
    (hcount : (quotedWords isspace isQuote text).length ≤ MAX_NR_TOKENS) :
    parseCommand (text ++ [NUL]) = .ok (blocksOf text) :=
  (scan_command [] htext (Nat.zero_le _)).1 ⟨hends, by rwa [List.length_nil, Nat.zero_add]⟩

theorem ends_iff {text : List Char} : Ends text ↔
    (∀ c ∈ text.getLast?, isspace c = true) ∧ text.count '"' % 2 = 0 := by
  have hcount : text.countP isQuote = text.count '"' := List.countP_congr fun c _ => by
    simp [isQuote]
  rw [Ends, opened_eq_false_iff, hcount]

/-- The parser stays in its command and in the array of `main` if and only if the last character
is whitespace, unless there is none, the marks of quotation come in pairs, and there are no more
words than places for tokens. -/
theorem stays_inside_iff {text : List Char} (htext : NUL ∉ text) :
    (∃ tokens, parseCommand (text ++ [NUL]) = .ok tokens) ↔
      ((∀ c ∈ text.getLast?, isspace c = true) ∧ text.count '"' % 2 = 0) ∧
        (quotedWords isspace isQuote text).length ≤ MAX_NR_TOKENS := by
  rw [← ends_iff]
  constructor
  · rintro ⟨tokens, hparse⟩
    by_contra hnot
    have hparses : ¬ Parses [] text := by
      rwa [Parses, List.length_nil, Nat.zero_add]
    obtain ⟨fault, hfault⟩ := (scan_command [] htext (Nat.zero_le _)).2 hparses
    change parseCommand (text ++ [NUL]) = .error fault at hfault
    rw [hfault] at hparse
    cases hparse
  · rintro ⟨hends, hcount⟩
    exact ⟨_, parseCommand_eq htext hends hcount⟩

theorem stays_inside_iff_covid :
    (∃ tokens, parseCommand ("rm -rf \"covid 19\"\n".toList ++ [NUL]) = .ok tokens) ∧
      ¬ ∃ tokens, parseCommand ("rm -rf \"covid 19\n".toList ++ [NUL]) = .ok tokens := by
  have hclosed : NUL ∉ "rm -rf \"covid 19\"\n".toList := by decide
  have hopened : NUL ∉ "rm -rf \"covid 19\n".toList := by decide
  rw [stays_inside_iff hclosed, stays_inside_iff hopened, ← ends_iff, ← ends_iff]
  decide

/-- The last line of a file without a newline at its end, a line with one mark of quotation, and
a line with more words than the array has places. -/
theorem runs_past_the_end :
    parseCommand ("hello world".toList ++ [NUL]) = .error .outOfCommand ∧
      parseCommand ("say \"hello\n".toList ++ [NUL]) = .error .outOfCommand ∧
      parseCommand ((List.replicate 43 "a ".toList).flatten ++ ['\n', NUL]) =
        .error .outOfTokens := by
  decide

end OperatingSystem.Parser.Pa0
