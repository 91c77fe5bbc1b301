import Mathlib.Data.List.ReduceOption
import OperatingSystem.ParserPa0

/-!
# Tokens with quotations

The parser of PA0 undoes the writing of tokens, each plain or between marks of quotation. If the
marks touch other characters, it may keep some of them: it leaves out as many characters at the
front of a word as there are quotations in it, wherever these are.
-/

namespace OperatingSystem.Parser.Pa0

/-! ## Written tokens -/

/-- A token as it is written: plain, or between marks of quotation. -/
inductive Written where
  | plain (token : List Char) (nonempty : token ≠ [])
      (unmarked : ∀ c ∈ token, c ≠ NUL ∧ c ≠ '"' ∧ isspace c = false)
  | quotation (token : List Char) (unmarked : ∀ c ∈ token, c ≠ NUL ∧ c ≠ '"')

def Written.token : Written → List Char
  | .plain token _ _ => token
  | .quotation token _ => token

def Written.render : Written → List Char
  | .plain token _ _ => token
  | .quotation token _ => '"' :: (token ++ ['"'])

/-- Whitespace, or nothing. -/
structure Gap where
  chars : List Char
  space : ∀ c ∈ chars, isspace c = true

/-- Whitespace behind a token. -/
structure Separator extends Gap where
  nonempty : chars ≠ []

/-- Tokens, each with what separates it from the next one or from the end. -/
def renderLine (items : List (Written × Separator)) : List Char :=
  items.flatMap fun item => item.1.render ++ item.2.chars

theorem not_space_mark : isspace '"' = false := by decide

theorem NUL_notMem_gap (gap : Gap) : NUL ∉ gap.chars :=
  fun hmem => absurd (gap.space _ hmem) (by decide)

theorem closed_of_notMem {run : List Char} (hrun : '"' ∉ run) : run.countP isQuote = 0 := by
  rw [List.countP_eq_zero]
  intro c hc hquote
  exact hrun (isQuote_iff.mp hquote ▸ hc)

/-- A text without whitespace is not broken. -/
theorem unbroken_of_no_space {run : List Char} (hrun : ∀ c ∈ run, isspace c = false) :
    Unbroken isspace isQuote run := by
  intro x hx
  have hmem : x.1 ∈ run := by
    rw [← map_fst_quoted isQuote false run]
    exact List.mem_map_of_mem hx
  simp [outerSep, hrun _ hmem]

/-- Neither is one between marks of quotation. -/
theorem unbroken_of_quotation {token : List Char} (htoken : '"' ∉ token) :
    Unbroken isspace isQuote ('"' :: (token ++ ['"'])) := by
  suffices hopened : ∀ run, '"' ∉ run →
      Unbroken isspace isQuote ('"' :: run) ∧ opened isQuote ('"' :: run) = true by
    obtain ⟨hunbroken, -⟩ := hopened token htoken
    rw [← List.cons_append, unbroken_snoc]
    exact ⟨hunbroken, fun hspace => absurd hspace (by decide)⟩
  intro run hrun
  induction run using List.reverseRecOn with
  | nil => exact ⟨unbroken_of_no_space (by simp [not_space_mark]), by decide⟩
  | append_singleton run c ih =>
      rw [List.mem_append, not_or, List.mem_singleton] at hrun
      obtain ⟨hunbroken, hopened⟩ := ih hrun.1
      have hplain : isQuote c = false := by simpa [isQuote] using Ne.symm hrun.2
      rw [← List.cons_append, unbroken_snoc, opened_snoc, hopened, hplain]
      exact ⟨⟨hunbroken, fun _ => rfl⟩, rfl⟩

/-- A word without marks is copied as a whole, and of a quotation what is between its marks. -/
theorem unquote_plain {token : List Char} (htoken : '"' ∉ token) : unquote token = token := by
  have hlast : token.getLast? ≠ some '"' := fun heq => htoken (List.mem_of_getLast? heq)
  rw [unquote, withoutLast, if_neg hlast, quotations, closed_of_notMem htoken, Nat.zero_div,
    List.drop_zero]

theorem unquote_quotation {token : List Char} (htoken : '"' ∉ token) :
    unquote ('"' :: (token ++ ['"'])) = token := by
  have hlast : ('"' :: (token ++ ['"'])).getLast? = some '"' := by
    rw [← List.cons_append, List.getLast?_concat]
  have hone : quotations ('"' :: (token ++ ['"'])) = 1 := by
    simp [quotations, List.countP_append, closed_of_notMem htoken, isQuote]
  rw [unquote, withoutLast, if_pos hlast, hone, ← List.cons_append, List.dropLast_concat]
  rfl

namespace Written

variable (written : Written)

theorem mark_notMem_token : '"' ∉ written.token := by
  cases written with
  | plain token _ unmarked => exact fun hmem => (unmarked _ hmem).2.1 rfl
  | quotation token unmarked => exact fun hmem => (unmarked _ hmem).2 rfl

theorem NUL_notMem_token : NUL ∉ written.token := by
  cases written with
  | plain token _ unmarked => exact fun hmem => (unmarked _ hmem).1 rfl
  | quotation token unmarked => exact fun hmem => (unmarked _ hmem).1 rfl

theorem NUL_notMem_render : NUL ∉ written.render := by
  have hnot := written.NUL_notMem_token
  cases written with
  | plain token _ unmarked => exact hnot
  | quotation token unmarked =>
      intro hmem
      rcases List.mem_cons.mp hmem with hmark | hmem
      · exact absurd hmark (by decide)
      · rcases List.mem_append.mp hmem with hmem | hmark
        · exact hnot hmem
        · exact absurd (List.mem_singleton.mp hmark) (by decide)

theorem render_ne_nil : written.render ≠ [] := by
  cases written with
  | plain token nonempty _ => exact nonempty
  | quotation token _ => exact List.cons_ne_nil _ _

theorem render_unbroken : Unbroken isspace isQuote written.render := by
  have hnot := written.mark_notMem_token
  cases written with
  | plain token _ unmarked => exact unbroken_of_no_space fun c hc => (unmarked c hc).2.2
  | quotation token _ => exact unbroken_of_quotation hnot

theorem render_closed : opened isQuote written.render = false := by
  have hnone := closed_of_notMem written.mark_notMem_token
  rw [opened_eq_false_iff]
  cases written with
  | plain token _ _ =>
      change token.countP isQuote = 0 at hnone
      rw [render, hnone]
  | quotation token _ =>
      change token.countP isQuote = 0 at hnone
      simp [render, List.countP_append, hnone, isQuote]

/-- What is copied of a written token is the token. -/
theorem unquote_render : unquote written.render = written.token := by
  have hnot := written.mark_notMem_token
  cases written with
  | plain token _ _ => exact unquote_plain hnot
  | quotation token _ => exact unquote_quotation hnot

end Written

/-! ## A line of written tokens -/

theorem ends_gap (gap : Gap) (text : List Char) : Ends (gap.chars ++ text) ↔ Ends text := by
  obtain ⟨chars, hspace⟩ := gap
  induction chars with
  | nil => rfl
  | cons c chars ih =>
      obtain ⟨hc, hspace⟩ := List.forall_mem_cons.mp hspace
      have hnone : opened isQuote [] = false := opened_nil
      exact (ends_split hnone hc (chars ++ text)).trans (ih hspace)

theorem quotedWords_lead (gap : Gap) (text : List Char) :
    quotedWords isspace isQuote (gap.chars ++ text) = quotedWords isspace isQuote text :=
  quotedWords_gap (fun _ => not_space_of_quote) gap.space text

/-- One token and its separator, in front of the rest of a line. -/
theorem written_cons (written : Written) (separator : Separator) (text : List Char) :
    (Ends (written.render ++ separator.chars ++ text) ↔ Ends text) ∧
      quotedWords isspace isQuote (written.render ++ separator.chars ++ text) =
        written.render :: quotedWords isspace isQuote text := by
  obtain ⟨⟨chars, hspace⟩, hne⟩ := separator
  obtain ⟨c, chars, rfl⟩ := List.exists_cons_of_ne_nil hne
  obtain ⟨hc, hspace⟩ := List.forall_mem_cons.mp hspace
  rw [List.append_assoc, List.cons_append]
  constructor
  · rw [ends_split written.render_closed hc]
    exact ends_gap ⟨chars, hspace⟩ text
  · have hlead := quotedWords_lead ⟨chars, hspace⟩ text
    rw [quotedWords_split (fun _ => not_space_of_quote) written.render_closed hc, hlead,
      quotedWords_of_unbroken written.render_ne_nil written.render_unbroken]
    rfl

theorem renderLine_spec (items : List (Written × Separator)) :
    NUL ∉ renderLine items ∧ Ends (renderLine items) ∧
      quotedWords isspace isQuote (renderLine items) = items.map fun item => item.1.render := by
  induction items with
  | nil => decide
  | cons item items ih =>
      obtain ⟨hnot, hends, hwords⟩ := ih
      obtain ⟨hiff, hcons⟩ := written_cons item.1 item.2 (renderLine items)
      have hline : renderLine (item :: items) =
          item.1.render ++ item.2.chars ++ renderLine items := rfl
      rw [hline]
      refine ⟨?_, hiff.mpr hends, by rw [hcons, hwords, List.map_cons]⟩
      rw [List.mem_append, List.mem_append, not_or, not_or]
      exact ⟨⟨item.1.NUL_notMem_render, NUL_notMem_gap item.2.toGap⟩, hnot⟩

/-- **Parsing undoes writing.** Each token is copied into a block of its own, of its length and a
terminator, if the array has room for all of them. -/
theorem parse_written (lead : Gap) {items : List (Written × Separator)}
    (hcount : items.length ≤ MAX_NR_TOKENS) :
    parseCommand (lead.chars ++ renderLine items ++ [NUL]) =
      .ok (items.map fun item => blockOf item.1.token) := by
  obtain ⟨hnot, hends, hwords⟩ := renderLine_spec items
  have htext : NUL ∉ lead.chars ++ renderLine items := by
    rw [List.mem_append, not_or]
    exact ⟨NUL_notMem_gap lead, hnot⟩
  have hline : quotedWords isspace isQuote (lead.chars ++ renderLine items) =
      items.map fun item => item.1.render := by
    rw [quotedWords_lead, hwords]
  have hroom : (quotedWords isspace isQuote (lead.chars ++ renderLine items)).length ≤
      MAX_NR_TOKENS := by
    rwa [hline, List.length_map]
  rw [parseCommand_eq htext ((ends_gap lead _).mpr hends) hroom, blocksOf, hline, List.map_map]
  congr 1
  exact List.map_congr_left fun item _ => congrArg blockOf item.1.unquote_render

/-- A word and a quotation with a space in it. -/
theorem parse_written_quoted :
    parseCommand (" rm \"a b\"\n".toList ++ [NUL]) =
      .ok [blockOf "rm".toList, blockOf "a b".toList] := by
  have hrm : ∀ c ∈ ['r', 'm'], c ≠ NUL ∧ c ≠ '"' ∧ isspace c = false := by
    rw [List.forall_mem_cons, List.forall_mem_singleton]
    decide
  have hab : ∀ c ∈ ['a', ' ', 'b'], c ≠ NUL ∧ c ≠ '"' := by
    rw [List.forall_mem_cons, List.forall_mem_cons, List.forall_mem_singleton]
    decide
  let space : Separator := ⟨⟨[' '], List.forall_mem_singleton.mpr (by decide)⟩, by simp⟩
  let newline : Separator := ⟨⟨['\n'], List.forall_mem_singleton.mpr (by decide)⟩, by simp⟩
  have hcount : [(Written.plain ['r', 'm'] (by simp) hrm, space),
      (.quotation ['a', ' ', 'b'] hab, newline)].length ≤ MAX_NR_TOKENS :=
    show 2 ≤ MAX_NR_TOKENS by decide
  exact parse_written space.toGap hcount

/-! ## Marks that stay -/

/-- The string in a block, up to its terminator. -/
def string (block : Block) : List Char := (block.takeWhile fun c => c ≠ some NUL).reduceOption

/-- The command without its marks of quotation and the whitespace outside of its quotations. -/
def plainText (text : List Char) : List Char :=
  ((quoted isQuote false text).filter fun x => !isQuote x.1 && !outerSep isspace x).map Prod.fst

/-- The tokens are free of marks, and together they are the command without marks and whitespace. -/
def MarksRemoved (text : List Char) : Prop :=
  ∃ tokens, parseCommand (text ++ [NUL]) = .ok tokens ∧ (∀ token ∈ tokens, some '"' ∉ token) ∧
    (tokens.map string).flatten = plainText text

/-- A word that is a quotation as a whole, without marks in it. -/
def Quotation (word : List Char) : Prop := ∃ token, '"' ∉ token ∧ word = '"' :: (token ++ ['"'])

theorem string_blockOf {text : List Char} (htext : NUL ∉ text) : string (blockOf text) = text := by
  have hnot : ∀ c ∈ text.map some, decide (c ≠ some NUL) = true := by
    simpa using fun c hc (heq : c = NUL) => htext (heq ▸ hc)
  rw [string, blockOf, List.takeWhile_append_of_pos hnot]
  rw [List.takeWhile_cons_of_neg (by simp), List.append_nil, List.reduceOption, List.filterMap_map]
  exact List.filterMap_some

theorem mark_mem_blockOf (text : List Char) : some '"' ∈ blockOf text ↔ '"' ∈ text := by
  have hne : '"' ≠ NUL := by decide
  simp [blockOf, hne]

theorem plainText_eq (text : List Char) :
    plainText text = (quotedWords isspace isQuote text).flatten.filter fun c => !isQuote c := by
  rw [quotedWords_flatten, plainText, List.filter_map, List.filter_filter]
  rfl

theorem eq_mark {xs : List Char} (hlength : xs.length ≤ 1) (hcount : xs.countP isQuote = 1) :
    xs = ['"'] := by
  have hle : xs.countP isQuote ≤ xs.length := List.countP_le_length
  obtain ⟨c, rfl⟩ := List.length_eq_one_iff.mp (show xs.length = 1 by omega)
  rw [List.countP_singleton] at hcount
  split_ifs at hcount with hquote
  rw [isQuote_iff.mp hquote]

/-- To remove all marks, what is left out must be one mark at each end. -/
theorem mark_notMem_unquote_iff {word : List Char} (hclosed : opened isQuote word = false) :
    '"' ∉ unquote word ↔ '"' ∉ word ∨ Quotation word := by
  obtain ⟨last, hword, hlast⟩ := withoutLast_append word
  have heven := (opened_eq_false_iff word).mp hclosed
  constructor
  · intro hnot
    let front := (withoutLast word).take (quotations word)
    have hsplit : word = front ++ (unquote word ++ last) := by
      conv_lhs => rw [hword, ← List.take_append_drop (quotations word) (withoutLast word)]
      rw [List.append_assoc]
      rfl
    have hlength : front.length = word.countP isQuote / 2 :=
      List.length_take_of_le (quotations_le_withoutLast word)
    have hone : last.length ≤ 1 := by
      rw [hlast]
      split_ifs <;> simp
    -- half of the marks are more than those that are left out, unless there are two of them
    have hcount := congrArg (List.countP isQuote) hsplit
    rw [List.countP_append, List.countP_append, closed_of_notMem hnot, Nat.zero_add] at hcount
    have hfront : front.countP isQuote ≤ front.length := List.countP_le_length
    have hend : last.countP isQuote ≤ last.length := List.countP_le_length
    rcases Nat.eq_zero_or_pos (word.countP isQuote) with hzero | hpos
    · exact .inl fun hmem => List.countP_eq_zero.mp hzero _ hmem rfl
    · have hfirst : front = ['"'] := eq_mark (by omega) (by omega)
      have hlast : last = ['"'] := eq_mark (by omega) (by omega)
      refine .inr ⟨unquote word, hnot, ?_⟩
      rw [hfirst, hlast] at hsplit
      exact hsplit
  · rintro (hnot | ⟨token, htoken, rfl⟩)
    · rwa [unquote_plain hnot]
    · rwa [unquote_quotation htoken]

/-- Then the word is copied without its marks. -/
theorem unquote_eq_filter {word : List Char} (hword : '"' ∉ word ∨ Quotation word) :
    unquote word = word.filter fun c => !isQuote c := by
  have hplain : ∀ token : List Char, '"' ∉ token → token.filter (fun c => !isQuote c) = token := by
    intro token htoken
    refine List.filter_eq_self.mpr fun c hc => ?_
    cases hquote : isQuote c with
    | false => rfl
    | true => exact absurd (isQuote_iff.mp hquote ▸ hc) htoken
  rcases hword with hnot | ⟨token, htoken, rfl⟩
  · rw [unquote_plain hnot, hplain word hnot]
  · have hmark : isQuote '"' = true := rfl
    rw [unquote_quotation htoken]
    simp [hplain token htoken, hmark]

theorem unquote_subset {word : List Char} {c : Char} (hc : c ∈ unquote word) : c ∈ word := by
  obtain ⟨last, hword, -⟩ := withoutLast_append word
  rw [hword]
  exact List.mem_append_left _ (List.mem_of_mem_drop hc)

section Text

variable {text : List Char} (htext : NUL ∉ text) (hends : Ends text)
include htext hends

/-- The words of such a text are such words. -/
theorem closed_words : ∀ word ∈ quotedWords isspace isQuote text,
    NUL ∉ word ∧ opened isQuote word = false := by
  intro word hword
  refine (forall_quotedWords (P := fun word => NUL ∉ word ∧ opened isQuote word = false)
    (fun _ => not_space_of_quote) ?_ ⟨htext, hends.2⟩ word hword).2.2
  rintro run c rest hclosed hspace ⟨hnot, hopened⟩
  rw [List.mem_append, List.mem_cons, not_or, not_or] at hnot
  rw [← List.singleton_append, opened_append, opened_append, opened_singleton, hclosed,
    not_space_of_quote hspace, Bool.false_xor, Bool.false_xor] at hopened
  exact ⟨⟨hnot.1, hclosed⟩, hnot.2.2, hopened⟩

/-- The strings in the blocks are what is copied of the words. -/
theorem strings_eq : (blocksOf text).map string =
    (quotedWords isspace isQuote text).map unquote := by
  rw [blocksOf, List.map_map]
  refine List.map_congr_left fun word hword => ?_
  have hnot := (closed_words htext hends word hword).1
  exact string_blockOf fun hmem => hnot (unquote_subset hmem)

end Text

/-- From a text that ends between two words and outside of a quotation the marks are removed if and
only if each word that has any is a quotation as a whole. -/
theorem marks_removed_iff {text : List Char} (htext : NUL ∉ text)
    (hlast : ∀ c ∈ text.getLast?, isspace c = true) (heven : text.count '"' % 2 = 0)
    (hcount : (quotedWords isspace isQuote text).length ≤ MAX_NR_TOKENS) :
    MarksRemoved text ↔
      ∀ word ∈ quotedWords isspace isQuote text, '"' ∉ word ∨ Quotation word := by
  have hends : Ends text := ends_iff.mpr ⟨hlast, heven⟩
  have hparse := parseCommand_eq htext hends hcount
  constructor
  · rintro ⟨tokens, htokens, hfree, -⟩ word hword
    rw [hparse] at htokens
    obtain rfl := Except.ok.inj htokens
    rw [← mark_notMem_unquote_iff (closed_words htext hends word hword).2, ← mark_mem_blockOf]
    exact hfree _ (List.mem_map_of_mem hword)
  · intro hwords
    refine ⟨_, hparse, ?_, ?_⟩
    · rw [blocksOf, List.forall_mem_map]
      intro word hword
      rw [mark_mem_blockOf, mark_notMem_unquote_iff (closed_words htext hends word hword).2]
      exact hwords word hword
    · rw [strings_eq htext hends, plainText_eq, List.filter_flatten]
      exact congrArg List.flatten
        (List.map_congr_left fun word hword => unquote_eq_filter (hwords word hword))

theorem marks_removed_iff_covid : MarksRemoved " rm \"covid 19\"\n".toList := by
  have hwords : quotedWords isspace isQuote " rm \"covid 19\"\n".toList =
      ["rm".toList, "\"covid 19\"".toList] := by decide
  have hends : Ends " rm \"covid 19\"\n".toList := by decide
  obtain ⟨hlast, heven⟩ := ends_iff.mp hends
  refine (marks_removed_iff (by decide) hlast heven (by rw [hwords]; decide)).mpr ?_
  rw [hwords, List.forall_mem_cons, List.forall_mem_singleton]
  exact ⟨.inl (by decide), .inr ⟨"covid 19".toList, by decide, rfl⟩⟩

/-- Of a quotation that touches another character, the character is left out and a mark stays. -/
theorem mark_stays :
    let text := "a\"b c\" ".toList
    NUL ∉ text ∧ (∀ c ∈ text.getLast?, isspace c = true) ∧ text.count '"' % 2 = 0 ∧
      parseCommand (text ++ [NUL]) = .ok [blockOf "\"b c".toList] ∧ ¬ MarksRemoved text := by
  have hparse : parseCommand ("a\"b c\" ".toList ++ [NUL]) = .ok [blockOf "\"b c".toList] := by
    decide
  have hends : Ends "a\"b c\" ".toList := by decide
  obtain ⟨hlast, heven⟩ := ends_iff.mp hends
  refine ⟨by decide, hlast, heven, hparse, ?_⟩
  rintro ⟨tokens, htokens, hfree, -⟩
  rw [hparse] at htokens
  obtain rfl := Except.ok.inj htokens
  exact hfree _ (List.mem_singleton_self _) (by decide)

end OperatingSystem.Parser.Pa0
