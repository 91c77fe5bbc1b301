import OperatingSystem.CStrings
import OperatingSystem.Loops

/-!
# The command parser

`parse_command` splits a command in place: it overwrites the whitespace by terminators and keeps
pointers to the words. The parsers of the scheduler and of the virtual memory simulator are the
same and cut a comment off; that of the shell does not know comments.
-/

namespace OperatingSystem.Parser

/-- The size of the arrays that the callers pass for the tokens. -/
abbrev MAX_NR_TOKENS : Nat := 32

/-- The character that terminates a string. -/
abbrev NUL : Char := '\x00'

/-- What a program must not do: an index out of an array, a null pointer that is followed, a
string that is too long for its array or copied over itself, and a recursion without end. -/
inductive Fault where
  | outOfBounds
  | nullPointer
  | overflow
  | overlap
  | outOfFuel
deriving DecidableEq, Repr

/-- `isspace` of the C locale. -/
def isspace (c : Char) : Bool := c = ' ' ∨ ('\t' ≤ c ∧ c ≤ '\r')

/-- The memory that `parse_command` works on: the command, and the tokens as places in it. -/
structure Parsed where
  command : List Char
  nrTokens : Nat
  tokens : List (Option Nat)
deriving DecidableEq, Repr

/-- `tokens[*nr_tokens] = curr; *nr_tokens += 1;` -/
def Parsed.addToken (p : Parsed) (curr : Nat) : Except Fault Parsed :=
  if p.nrTokens < p.tokens.length then
    .ok { p with nrTokens := p.nrTokens + 1, tokens := p.tokens.set p.nrTokens (some curr) }
  else .error .outOfBounds

/-- The loop over the command. The third argument is the command from `curr` on, which has not
been overwritten yet. -/
def scan : Bool → Nat → List Char → Parsed → Except Fault Parsed
  | _, _, [], _ => .error .outOfBounds
  | tokenStarted, curr, c :: rest, p =>
    if c = NUL then .ok p
    else if isspace c then
      scan false (curr + 1) rest { p with command := p.command.set curr NUL }
    else if tokenStarted then scan true (curr + 1) rest p
    else do
      let p ← p.addToken curr
      scan true (curr + 1) rest p

/-- The loop that removes a comment, over the indices that it visits. -/
def Parsed.removeComment (p : Parsed) : List Nat → Except Fault Parsed
  | [] => .ok p
  | i :: rest =>
    match p.tokens[i]? with
    | none => .error .outOfBounds
    | some none => .error .nullPointer
    | some (some token) =>
      match p.command[token]? with
      | none => .error .outOfBounds
      | some c =>
        if c = '#' then .ok { p with nrTokens := i, tokens := p.tokens.set i none }
        else p.removeComment rest

/-- `parse_command` of PA1. -/
def Pa1.parseCommand (command : List Char) (tokens : List (Option Nat)) :
    Except Fault (Nat × Parsed) := do
  let p ← scan false 0 command ⟨command, 0, tokens⟩
  return (if 0 < p.nrTokens then 1 else 0, p)

/-- `parse_command` of PA2 and PA4. -/
def parseCommand (command : List Char) (tokens : List (Option Nat)) :
    Except Fault (Nat × Parsed) := do
  let p ← scan false 0 command ⟨command, 0, tokens⟩
  let p ← p.removeComment (List.range p.nrTokens)
  return (if 0 < p.nrTokens then 1 else 0, p)

/-- The C strings at `tokens[0..nr_tokens-1]`. -/
def Parsed.strings (p : Parsed) : List (Option (List Char)) :=
  (p.tokens.take p.nrTokens).map (Option.map (stringAt NUL p.command))

/-- The string at `tokens[i]`. -/
def Parsed.token (p : Parsed) (i : Nat) : Except Fault (List Char) :=
  match p.tokens[i]? with
  | none => .error .outOfBounds
  | some none => .error .nullPointer
  | some (some place) => .ok (stringAt NUL p.command place)

theorem Parsed.token_eq {p : Parsed} {words : List (List Char)}
    (hstrings : p.strings = words.map some) {i : Nat} {word : List Char}
    (hword : words[i]? = some word) : p.token i = .ok word := by
  have hstring : p.strings[i]? = some (some word) := by
    rw [hstrings, List.getElem?_map, hword, Option.map_some]
  rw [Parsed.strings, List.getElem?_map, Option.map_eq_some_iff] at hstring
  obtain ⟨slot, hslot, hstring⟩ := hstring
  obtain ⟨place, rfl, rfl⟩ := Option.map_eq_some_iff.mp hstring
  rw [List.getElem?_take] at hslot
  split_ifs at hslot
  rw [Parsed.token, hslot]

/-! ## The scan -/

/-- The command is overwritten up to the end of the text, and a token is added for each word
that starts there. -/
theorem scan_spec (inside : Bool) (before : List Char) {text : List Char} (htext : NUL ∉ text)
    (after : List Char) (filled free : List (Option Nat))
    (hfits : (wordStarts isspace inside before.length text).length ≤ free.length) :
    scan inside before.length (text ++ NUL :: after)
        ⟨blank NUL isspace before ++ (text ++ NUL :: after), filled.length, filled ++ free⟩ =
      .ok ⟨blank NUL isspace (before ++ text) ++ NUL :: after,
        filled.length + (wordStarts isspace inside before.length text).length,
        filled ++ (wordStarts isspace inside before.length text).map some ++
          free.drop (wordStarts isspace inside before.length text).length⟩ := by
  induction text generalizing inside before filled free with
  | nil => simp [scan, wordStarts]
  | cons c text ih =>
      rw [List.mem_cons, not_or] at htext
      obtain ⟨hc, htext⟩ := htext
      have hnext := fun inside => ih inside (before ++ [c]) htext
      rw [List.length_append, List.length_singleton, List.append_assoc, List.singleton_append]
        at hnext
      rw [wordStarts] at hfits ⊢
      rw [List.cons_append, scan, if_neg (Ne.symm hc)]
      cases hspace : isspace c with
      | true =>
          rw [hspace] at hfits
          simp only [if_true] at hfits ⊢
          rw [set_blank hspace]
          exact hnext false filled free hfits
      | false =>
          rw [hspace] at hfits
          simp only [Bool.false_eq_true, if_false] at hfits ⊢
          rw [blank_of_not_sep hspace]
          cases inside with
          | true => exact hnext true filled free hfits
          | false =>
              simp only [Bool.false_eq_true, if_false, List.length_cons] at hfits ⊢
              obtain ⟨slot, free, rfl⟩ :=
                List.exists_cons_of_length_pos (show 0 < free.length by omega)
              have hadd := hnext true (filled ++ [some before.length]) free (by simpa using hfits)
              simp only [List.length_append, List.length_singleton, List.append_assoc,
                List.singleton_append] at hadd
              have hlt : filled.length < (filled ++ slot :: free).length := by simp
              have hset : (filled ++ slot :: free).set filled.length (some before.length) =
                  filled ++ some before.length :: free := by
                rw [List.set_append_right _ _ le_rfl, Nat.sub_self, List.set_cons_zero]
              simp only [Parsed.addToken, if_pos hlt, ok_bind, hset, List.map_cons,
                List.drop_succ_cons, List.append_assoc, List.cons_append]
              rw [hadd]
              congr 2
              omega

/-- If there are more words than places for tokens, a token is written out of the array. -/
theorem scan_overfull (inside : Bool) (place : Nat) {text : List Char} (htext : NUL ∉ text)
    (after : List Char) {p : Parsed}
    (hfull : p.tokens.length < p.nrTokens + (wordStarts isspace inside place text).length)
    (hfits : p.nrTokens ≤ p.tokens.length) :
    scan inside place (text ++ NUL :: after) p = .error .outOfBounds := by
  induction text generalizing inside place p with
  | nil =>
      rw [wordStarts, List.length_nil] at hfull
      omega
  | cons c text ih =>
      rw [List.mem_cons, not_or] at htext
      obtain ⟨hc, htext⟩ := htext
      rw [wordStarts] at hfull
      rw [List.cons_append, scan, if_neg (Ne.symm hc)]
      cases hspace : isspace c with
      | true =>
          rw [hspace, if_pos rfl] at hfull
          exact ih false _ htext (by simpa using hfull) (by simpa using hfits)
      | false =>
          rw [hspace, if_neg Bool.false_ne_true] at hfull
          rw [if_neg Bool.false_ne_true]
          cases inside with
          | true => exact ih true _ htext hfull hfits
          | false =>
              rw [if_neg Bool.false_ne_true, List.length_cons] at hfull
              rw [if_neg Bool.false_ne_true, Parsed.addToken]
              by_cases hlt : p.nrTokens < p.tokens.length
              · rw [if_pos hlt, ok_bind]
                apply ih true _ htext
                · simp only [List.length_set]
                  omega
                · simp only [List.length_set]
                  omega
              · rw [if_neg hlt]
                rfl

/-! ## The words -/

section Text

variable {text : List Char} (htext : NUL ∉ text) (after : List Char)
include htext

/-- What the scan leaves behind: the text with terminators for its whitespace, and its words. -/
theorem scan_text {tokens : List (Option Nat)}
    (hfits : (words isspace text).length ≤ tokens.length) :
    scan false 0 (text ++ NUL :: after) ⟨text ++ NUL :: after, 0, tokens⟩ =
      .ok ⟨blank NUL isspace text ++ NUL :: after, (words isspace text).length,
        (wordStarts isspace false 0 text).map some ++ tokens.drop (words isspace text).length⟩ := by
  rw [← wordStarts_length] at hfits ⊢
  exact (scan_spec false [] htext after [] tokens hfits).trans (by simp)

/-- The strings at the starts of the words are the words. -/
theorem strings_at_starts :
    (wordStarts isspace false 0 text).map
        (stringAt NUL (blank NUL isspace text ++ NUL :: after)) = words isspace text := by
  rw [← wordStarts_words_text]
  apply List.map_congr_left
  intro start hstart
  have hlt := lt_length_of_mem_wordStarts hstart
  exact stringAt_blank htext after (by omega)

end Text

/-- The words start in the command. -/
theorem wordStarts_lt (text after : List Char) : ∀ start ∈ wordStarts isspace false 0 text,
    start < (blank NUL isspace text ++ NUL :: after).length := by
  intro start hstart
  have hlt := lt_length_of_mem_wordStarts hstart
  rw [List.length_append, length_blank]
  omega

/-! ## The comment -/

/-- The tokens that are kept are those before the first one that begins with `#`. -/
theorem removeComment_spec (command : List Char) (n : Nat) (passed : List Nat) {starts : List Nat}
    (free : List (Option Nat)) (hstarts : ∀ start ∈ starts, start < command.length)
    (hcount : n = (passed ++ starts).length) :
    ∃ p, Parsed.removeComment ⟨command, n, (passed ++ starts).map some ++ free⟩
        (List.range' passed.length starts.length) = .ok p ∧ p.command = command ∧
      p.nrTokens = (passed ++ starts.takeWhile fun start => command[start]? ≠ some '#').length ∧
      p.tokens.take p.nrTokens =
        (passed ++ starts.takeWhile fun start => command[start]? ≠ some '#').map some := by
  induction starts generalizing passed with
  | nil =>
      refine ⟨_, rfl, rfl, ?_⟩
      rw [List.takeWhile_nil, hcount]
      simp
  | cons start starts ih =>
      obtain ⟨hstart, hrest⟩ := List.forall_mem_cons.mp hstarts
      have htoken : ((passed ++ start :: starts).map some ++ free)[passed.length]? =
          some (some start) := by simp
      rw [List.length_cons, List.range'_succ, Parsed.removeComment]
      simp only [htoken, List.getElem?_eq_getElem hstart]
      by_cases hcomment : command[start] = '#'
      · rw [if_pos hcomment]
        refine ⟨_, rfl, rfl, ?_⟩
        simp [hcomment, hstart]
      · rw [if_neg hcomment]
        have hnext := ih (passed ++ [start]) hrest (by simpa using hcount)
        simpa [hcomment, hstart] using hnext

/-- Without a comment nothing is removed. -/
theorem removeComment_none (command : List Char) (n : Nat) (passed : List Nat) {starts : List Nat}
    (free : List (Option Nat)) (hstarts : ∀ start ∈ starts, start < command.length)
    (hnone : ∀ start ∈ starts, command[start]? ≠ some '#') :
    Parsed.removeComment ⟨command, n, (passed ++ starts).map some ++ free⟩
        (List.range' passed.length starts.length) =
      .ok ⟨command, n, (passed ++ starts).map some ++ free⟩ := by
  induction starts generalizing passed with
  | nil => rfl
  | cons start starts ih =>
      obtain ⟨hstart, hrest⟩ := List.forall_mem_cons.mp hstarts
      obtain ⟨hfirst, hnone⟩ := List.forall_mem_cons.mp hnone
      have htoken : ((passed ++ start :: starts).map some ++ free)[passed.length]? =
          some (some start) := by simp
      rw [List.length_cons, List.range'_succ, Parsed.removeComment]
      simp only [htoken, List.getElem?_eq_getElem hstart]
      rw [if_neg (by simpa [hstart] using hfirst)]
      simpa using ih (passed ++ [start]) hrest hnone

/-! ## Exactly the words -/

/-- The strings at the tokens are the words of the command before its comment, and a command
without one is split the same by the shell. -/
theorem tokens_are_words {text : List Char} (htext : NUL ∉ text) (after : List Char)
    {tokens : List (Option Nat)} (hfits : (words isspace text).length ≤ tokens.length) :
    ∃ p, parseCommand (text ++ NUL :: after) tokens = .ok (if 0 < p.nrTokens then 1 else 0, p) ∧
      p.strings = ((words isspace text).takeWhile fun word => word.head? ≠ some '#').map some ∧
      p.nrTokens = p.strings.length ∧
      ((∀ word ∈ words isspace text, word.head? ≠ some '#') →
        Pa1.parseCommand (text ++ NUL :: after) tokens =
          parseCommand (text ++ NUL :: after) tokens) := by
  let command := blank NUL isspace text ++ NUL :: after
  let starts := wordStarts isspace false 0 text
  have hscan := scan_text htext after hfits
  have hstrings : starts.map (stringAt NUL command) = words isspace text :=
    strings_at_starts htext after
  have hcount : (words isspace text).length = starts.length := wordStarts_length text |>.symm
  have hbound : ∀ start ∈ starts, start < command.length := wordStarts_lt text after
  have hhead : ∀ start, command[start]? ≠ some '#' ↔
      (stringAt NUL command start).head? ≠ some '#' :=
    fun start => not_congr (head?_stringAt command start (by decide)).symm
  obtain ⟨p, hremove, hcommand, hnr, htokens⟩ := removeComment_spec command starts.length []
    (tokens.drop starts.length) hbound rfl
  rw [hcount] at hscan
  rw [List.nil_append] at hremove hnr htokens
  rw [List.length_nil, ← List.range_eq_range'] at hremove
  have hstring : ∀ kept : List Nat, (kept.map some).map (Option.map (stringAt NUL command)) =
      (kept.map (stringAt NUL command)).map some := by simp
  have hkept : p.strings =
      ((words isspace text).takeWhile fun word => word.head? ≠ some '#').map some := by
    rw [Parsed.strings, htokens, hcommand, hstring, ← hstrings, List.takeWhile_map]
    simp only [hhead]
    rfl
  have hlength : p.nrTokens = p.strings.length := by
    rw [Parsed.strings, htokens, hnr, List.length_map, List.length_map]
  refine ⟨p, ?_, hkept, hlength, fun hnone => ?_⟩
  · simp only [parseCommand, hscan, ok_bind]
    rw [hremove]
    rfl
  · have hnone' : ∀ start ∈ starts, command[start]? ≠ some '#' := by
      intro start hstart
      rw [hhead]
      exact hnone _ (hstrings ▸ List.mem_map_of_mem hstart)
    have hsame := removeComment_none command starts.length [] (tokens.drop starts.length) hbound
      hnone'
    rw [List.nil_append, List.length_nil, ← List.range_eq_range'] at hsame
    simp only [parseCommand, Pa1.parseCommand, hscan, ok_bind]
    rw [hsame]
    rfl

theorem tokens_are_words_comment :
    ∃ p, parseCommand (" ls -l\t#all #of\n".toList ++ NUL :: ['x'])
        (List.replicate MAX_NR_TOKENS none) = .ok (if 0 < p.nrTokens then 1 else 0, p) ∧
      p.strings = [some "ls".toList, some "-l".toList] := by
  have htext : NUL ∉ " ls -l\t#all #of\n".toList := by decide
  have hfits : (words isspace " ls -l\t#all #of\n".toList).length ≤
      (List.replicate (α := Option Nat) MAX_NR_TOKENS none).length := by decide
  obtain ⟨p, hparse, hstrings, -, -⟩ := tokens_are_words htext ['x'] hfits
  exact ⟨p, hparse, hstrings.trans (by decide)⟩

end OperatingSystem.Parser
