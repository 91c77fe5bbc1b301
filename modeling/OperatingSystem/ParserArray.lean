import OperatingSystem.Parser

/-!
# The array of tokens

The callers of `parse_command` pass an array of 32 null pointers, and the header promises that
what is behind the tokens is null. The parsers write a token for each word and do not count them
against the size of the array; a comment that is cut off stays in the array behind its first word.
-/

namespace OperatingSystem.Parser

/-- The array of a caller: all its entries are null. -/
def noTokens : List (Option Nat) := List.replicate MAX_NR_TOKENS none

/-- What the callers rely on: the parser returns, so it writes nowhere but in the array, and the
entries behind the tokens are null. -/
def Respects (result : Except Fault (Nat × Parsed)) : Prop :=
  ∃ ret p, result = .ok (ret, p) ∧
    ∀ k, p.nrTokens ≤ k → k < MAX_NR_TOKENS → p.tokens[k]? = some none

theorem respects_ok (ret : Nat) (p : Parsed) : Respects (.ok (ret, p)) ↔
    ∀ k, p.nrTokens ≤ k → k < MAX_NR_TOKENS → p.tokens[k]? = some none := by
  constructor
  · rintro ⟨ret', p', hresult, hclear⟩
    cases hresult
    exact hclear
  · exact fun hclear => ⟨ret, p, rfl, hclear⟩

theorem not_respects_error (fault : Fault) : ¬ Respects (.error fault) := by
  rintro ⟨ret, p, hresult, -⟩
  cases hresult

/-- The entries from the end of the tokens on are null if and only if what follows them is. -/
theorem clear_from_iff {filled free : List (Option Nat)}
    (hlength : (filled ++ free).length = MAX_NR_TOKENS) :
    (∀ k, filled.length ≤ k → k < MAX_NR_TOKENS → (filled ++ free)[k]? = some none) ↔
      ∀ slot ∈ free, slot = none := by
  rw [List.length_append] at hlength
  constructor
  · intro hclear slot hslot
    obtain ⟨k, hk, rfl⟩ := List.getElem_of_mem hslot
    have hslot := hclear (filled.length + k) (by omega) (by omega)
    rw [List.getElem?_append_right (by omega), Nat.add_sub_cancel_left,
      List.getElem?_eq_getElem hk] at hslot
    exact Option.some.inj hslot
  · intro hfree k hfilled hk
    have hlt : k - filled.length < free.length := by omega
    rw [List.getElem?_append_right hfilled, List.getElem?_eq_getElem hlt]
    exact congrArg some (hfree _ (List.getElem_mem hlt))

/-! ## The comment that stays -/

/-- Where the first word that begins with `#` is known, so is the whole array: only this one
entry is cleared, and the later words stay. -/
theorem removeComment_cut {command : List Char} (n : Nat) (passed : List Nat) {kept : List Nat}
    {comment : Nat} (later : List Nat) (free : List (Option Nat))
    (hkept : ∀ start ∈ kept, ∃ c, command[start]? = some c ∧ c ≠ '#')
    (hcomment : command[comment]? = some '#') :
    Parsed.removeComment
        ⟨command, n, (passed ++ kept).map some ++ some comment :: (later.map some ++ free)⟩
        (List.range' passed.length (kept ++ comment :: later).length) =
      .ok ⟨command, (passed ++ kept).length,
        (passed ++ kept).map some ++ none :: (later.map some ++ free)⟩ := by
  induction kept generalizing passed with
  | nil =>
      have htoken : (passed.map some ++ some comment :: (later.map some ++ free))[
          passed.length]? = some (some comment) := by simp
      have hset : (passed.map some ++ some comment :: (later.map some ++ free)).set
          passed.length none = passed.map some ++ none :: (later.map some ++ free) := by simp
      rw [List.nil_append, List.length_cons, List.range'_succ, List.append_nil,
        Parsed.removeComment]
      simp only [htoken, hcomment, if_true, hset]
  | cons start kept ih =>
      obtain ⟨⟨c, hc, hne⟩, hrest⟩ := List.forall_mem_cons.mp hkept
      have htoken : ((passed ++ start :: kept).map some ++
          some comment :: (later.map some ++ free))[passed.length]? = some (some start) := by simp
      rw [List.cons_append, List.length_cons, List.range'_succ, Parsed.removeComment]
      simp only [htoken, hc, if_neg hne]
      simpa using ih (passed ++ [start]) hrest

/-- If the first word that begins with `#` is known, it is the last one if and only if no word
before the last begins so. -/
theorem forall_dropLast_iff {α : Type*} {P : α → Prop} {kept : List α} {first : α}
    (later : List α) (hkept : ∀ x ∈ kept, P x) (hfirst : ¬ P first) :
    (∀ x ∈ (kept ++ first :: later).dropLast, P x) ↔ later = [] := by
  constructor
  · intro hall
    by_contra hlater
    refine hfirst (hall first ?_)
    rw [List.dropLast_append_cons, List.dropLast_cons_of_ne_nil hlater]
    simp
  · rintro rfl
    rw [List.dropLast_concat]
    exact hkept

/-! ## The array respected -/

section Starts

variable {command : List Char} {starts : List Nat} {free : List (Option Nat)}
  (hbound : ∀ start ∈ starts, start < command.length)
  (hlength : (starts.map some ++ free).length = MAX_NR_TOKENS) (hfree : ∀ slot ∈ free, slot = none)
include hlength hfree

/-- What the scan leaves is as the header promises. -/
theorem respects_scanned (ret : Nat) :
    Respects (.ok (ret, ⟨command, starts.length, starts.map some ++ free⟩)) := by
  rw [respects_ok]
  have hclear := (clear_from_iff hlength).mpr hfree
  rwa [List.length_map] at hclear

include hbound

/-- After the comment has been cut off, it is so if and only if the comment was one word. -/
theorem respects_uncommented_iff :
    Respects (do
      let p ← Parsed.removeComment ⟨command, starts.length, starts.map some ++ free⟩
        (List.range starts.length)
      return (if 0 < p.nrTokens then 1 else 0, p)) ↔
    ∀ start ∈ starts.dropLast, command[start]? ≠ some '#' := by
  cases hfind : starts.find? fun start => command[start]? = some '#' with
  | none =>
      have hnone : ∀ start ∈ starts, command[start]? ≠ some '#' := by simpa using hfind
      have hremove := removeComment_none command starts.length [] free hbound hnone
      rw [List.nil_append, List.length_nil, ← List.range_eq_range'] at hremove
      rw [hremove]
      exact iff_of_true (respects_scanned hlength hfree _)
        fun start hstart => hnone start (List.dropLast_subset _ hstart)
  | some comment =>
      obtain ⟨hcomment, kept, later, rfl, hkept⟩ := List.find?_eq_some_iff_append.mp hfind
      have hcomment : command[comment]? = some '#' := of_decide_eq_true hcomment
      have hkept : ∀ start ∈ kept, command[start]? ≠ some '#' := by simpa using hkept
      have hchars : ∀ start ∈ kept, ∃ c, command[start]? = some c ∧ c ≠ '#' := by
        intro start hstart
        have hlt := hbound start (List.mem_append_left _ hstart)
        have hne := hkept start hstart
        rw [List.getElem?_eq_getElem hlt] at hne ⊢
        exact ⟨command[start], rfl, fun heq => hne (congrArg some heq)⟩
      have hremove := removeComment_cut (kept ++ comment :: later).length [] later free hchars
        hcomment
      rw [List.nil_append, List.length_nil, ← List.range_eq_range'] at hremove
      have harray : (kept ++ comment :: later).map some ++ free =
          kept.map some ++ some comment :: (later.map some ++ free) := by simp
      have hcut : (kept.map some ++ none :: (later.map some ++ free)).length = MAX_NR_TOKENS := by
        rw [← hlength, harray]
        simp
      have hclear := clear_from_iff hcut
      rw [List.length_map] at hclear
      rw [forall_dropLast_iff later hkept (not_not_intro hcomment), harray, hremove]
      refine (respects_ok _ _).trans (hclear.trans ⟨fun hnone => ?_, ?_⟩)
      · refine List.eq_nil_iff_forall_not_mem.mpr fun start hstart => ?_
        cases hnone (some start) (by simp [hstart])
      · rintro rfl
        simpa using hfree

end Starts

section Text

variable {text : List Char} (htext : NUL ∉ text) (after : List Char)
include htext

/-- A line with more words than places makes both parsers write behind the array. -/
theorem parse_overfull (hfull : MAX_NR_TOKENS < (words isspace text).length) :
    Pa1.parseCommand (text ++ NUL :: after) noTokens = .error .outOfBounds ∧
      parseCommand (text ++ NUL :: after) noTokens = .error .outOfBounds := by
  have hscan : scan false 0 (text ++ NUL :: after) ⟨text ++ NUL :: after, 0, noTokens⟩ =
      .error .outOfBounds := by
    apply scan_overfull false 0 htext after
    · rw [wordStarts_length, Nat.zero_add]
      exact hfull
    · exact Nat.zero_le _
  simp only [Pa1.parseCommand, parseCommand, hscan]
  exact ⟨rfl, rfl⟩

/-- The array is respected by the parser of PA1 if and only if it has a place for each word; by
those of PA2 and PA4 if, moreover, no word but the last begins with `#`. -/
theorem array_respected_iff :
    (Respects (Pa1.parseCommand (text ++ NUL :: after) noTokens) ↔
      (words isspace text).length ≤ MAX_NR_TOKENS) ∧
    (Respects (parseCommand (text ++ NUL :: after) noTokens) ↔
      (words isspace text).length ≤ MAX_NR_TOKENS ∧
        ∀ word ∈ (words isspace text).dropLast, word.head? ≠ some '#') := by
  rcases Nat.lt_or_ge MAX_NR_TOKENS (words isspace text).length with hfull | hfits
  · obtain ⟨hpa1, hparse⟩ := parse_overfull htext after hfull
    have hnot := not_respects_error .outOfBounds
    rw [hpa1, hparse]
    exact ⟨iff_of_false hnot (by omega), iff_of_false hnot fun h => by omega⟩
  let command := blank NUL isspace text ++ NUL :: after
  let starts := wordStarts isspace false 0 text
  let free := noTokens.drop starts.length
  have hcount : starts.length = (words isspace text).length := wordStarts_length text
  have hscan := scan_text htext after
    (show (words isspace text).length ≤ noTokens.length from hfits)
  rw [← hcount] at hscan hfits
  have hbound : ∀ start ∈ starts, start < command.length := wordStarts_lt text after
  have hfree : ∀ slot ∈ free, slot = none :=
    fun slot hslot => List.eq_of_mem_replicate (List.mem_of_mem_drop hslot)
  have hlength : (starts.map some ++ free).length = MAX_NR_TOKENS := by
    have hnone : noTokens.length = MAX_NR_TOKENS := List.length_replicate
    rw [List.length_append, List.length_map, List.length_drop, hnone]
    omega
  have hheads : (∀ start ∈ starts.dropLast, command[start]? ≠ some '#') ↔
      ∀ word ∈ (words isspace text).dropLast, word.head? ≠ some '#' := by
    rw [← strings_at_starts htext after, ← List.map_dropLast, List.forall_mem_map]
    exact forall₂_congr fun start _ =>
      not_congr (head?_stringAt command start (by decide)).symm
  rw [← hcount, ← hheads]
  constructor
  · simp only [Pa1.parseCommand, hscan, ok_bind]
    exact iff_of_true (respects_scanned hlength hfree _) hfits
  · simp only [parseCommand, hscan, ok_bind]
    exact (respects_uncommented_iff hbound hlength hfree).trans (and_iff_right hfits).symm

end Text

theorem array_respected_iff_comment :
    ¬ Respects (parseCommand ("ls # all of\n".toList ++ NUL :: []) noTokens) ∧
      Respects (parseCommand ("ls -l #all\n".toList ++ NUL :: []) noTokens) := by
  have hlong : NUL ∉ "ls # all of\n".toList := by decide
  have hshort : NUL ∉ "ls -l #all\n".toList := by decide
  have hfull : words isspace "ls # all of\n".toList =
      ["ls".toList, "#".toList, "all".toList, "of".toList] := by decide
  have hfits : words isspace "ls -l #all\n".toList =
      ["ls".toList, "-l".toList, "#all".toList] := by decide
  rw [(array_respected_iff hlong []).2, (array_respected_iff hshort []).2, hfull, hfits]
  decide

/-- A script line with a comment of two words, and a line of 33 words. -/
theorem array_not_respected :
    let commented := "process 1 # first one\n".toList
    let crowded := (List.replicate 33 ['a', ' ']).flatten
    (NUL ∉ commented ∧ commented.length ≤ 255 ∧
      ¬ Respects (parseCommand (commented ++ [NUL]) noTokens)) ∧
    (NUL ∉ crowded ∧ crowded.length ≤ 255 ∧
      ¬ Respects (parseCommand (crowded ++ [NUL]) noTokens) ∧
      ¬ Respects (Pa1.parseCommand (crowded ++ [NUL]) noTokens)) := by
  refine ⟨⟨by decide, by decide, ?_⟩, by decide, by decide, ?_, ?_⟩
  · have hparse : parseCommand ("process 1 # first one\n".toList ++ [NUL]) noTokens =
        .ok (1, ⟨"process\x001\x00#\x00first\x00one\x00\x00".toList, 2,
          [some 0, some 8, none, some 12, some 18] ++ List.replicate 27 none⟩) := by rfl
    rw [hparse, respects_ok]
    intro hclear
    cases hclear 3 (by decide) (by decide)
  · have hparse : parseCommand ((List.replicate 33 ['a', ' ']).flatten ++ [NUL]) noTokens =
        .error .outOfBounds := by rfl
    rw [hparse]
    exact not_respects_error _
  · have hparse : Pa1.parseCommand ((List.replicate 33 ['a', ' ']).flatten ++ [NUL]) noTokens =
        .error .outOfBounds := by rfl
    rw [hparse]
    exact not_respects_error _

end OperatingSystem.Parser
