import OperatingSystem.Shell

/-!
# The tokens of the shell

The tokens point to strings that lie one behind the other in the command. A token that `for`
copies over its own word stays before the next but one, or it overlaps it; so what is written
changes that word and the number after it, and no other token.
-/

namespace OperatingSystem.Shell

open OperatingSystem.Parser

/-- The tokens point to these places, with `spare` null pointers behind them. A string at an even
index starts after all the earlier ones have ended. -/
structure Layout (command : List Char) (tokens : List (Option Nat)) (places : List Nat)
    (spare : Nat) : Prop where
  tokens_eq : tokens = places.map some ++ List.replicate spare none
  bounded : ∀ place ∈ places, place < command.length
  sorted : ∀ (i j p q : Nat), i < j → places[i]? = some p → places[j]? = some q → p < q
  apart : ∀ (i j p q : Nat), i < j → Even j → places[i]? = some p → places[j]? = some q →
    p + (stringAt NUL command p).length < q

/-- The tokens are these words. -/
def Tokens (s : Shell) (ws : List (List Char)) (spare : Nat) : Prop :=
  ∃ places, Layout s.command s.tokens places spare ∧
    places.map (stringAt NUL s.command) = ws

/-- The words behind a `for` and its number. -/
theorem drop_level {ws : List (List Char)} {j : Nat} {command number : List Char}
    {rest : List (List Char)} (hdrop : ws.drop j = command :: number :: rest) :
    ws.drop (j + 2) = rest := by
  rw [← List.drop_drop, hdrop]
  rfl

section Reading

variable {s : Shell} {ws : List (List Char)} {spare : Nat} (htokens : s.Tokens ws spare)
include htokens

theorem Tokens.string {i : Nat} {w : List Char} (hw : ws[i]? = some w) : s.string i = .ok w := by
  obtain ⟨places, hlayout, rfl⟩ := htokens
  rw [List.getElem?_map, Option.map_eq_some_iff] at hw
  obtain ⟨p, hp, rfl⟩ := hw
  have htoken : s.tokens[i]? = some (some p) := by
    rw [hlayout.tokens_eq, List.getElem?_append_left, List.getElem?_map, hp]
    · rfl
    · rw [List.length_map]
      exact (List.getElem?_eq_some_iff.mp hp).1
  simp only [Shell.string, place, htoken, ok_bind]
  rfl

theorem Tokens.string_null {i : Nat} (hle : ws.length ≤ i) (hlt : i < ws.length + spare) :
    s.string i = .error .nullPointer := by
  obtain ⟨places, hlayout, rfl⟩ := htokens
  rw [List.length_map] at hle hlt
  have htoken : s.tokens[i]? = some none := by
    rw [hlayout.tokens_eq, List.getElem?_append_right (by simpa using hle), List.length_map,
      List.getElem?_replicate, if_pos (by omega)]
  simp only [Shell.string, place, htoken]
  rfl

/-- The first token behind the words. -/
theorem Tokens.string_end :
    s.string ws.length = .error (if spare = 0 then .outOfBounds else .nullPointer) := by
  by_cases hspare : spare = 0
  · obtain ⟨places, hlayout, rfl⟩ := htokens
    have htoken : s.tokens[(places.map (stringAt NUL s.command)).length]? = none := by
      rw [hlayout.tokens_eq, hspare, List.length_map]
      simp
    simp only [Shell.string, place, htoken, if_pos hspare]
    rfl
  · rw [if_neg hspare]
    exact htokens.string_null le_rfl (by omega)

theorem Tokens.of_same {s' : Shell} (hcommand : s'.command = s.command)
    (hsame : s'.tokens = s.tokens) : s'.Tokens ws spare := by
  rwa [Tokens, hcommand, hsame]

theorem Tokens.string_drop {j i : Nat} {w : List Char} {rest : List (List Char)}
    (hdrop : ws.drop j = rest) (hi : rest[i]? = some w) : s.string (j + i) = .ok w := by
  apply htokens.string
  rw [← List.getElem?_drop, hdrop, hi]

theorem Tokens.head {j : Nat} {w : List Char} {rest : List (List Char)}
    (hdrop : ws.drop j = w :: rest) : s.string j = .ok w :=
  htokens.string_drop (i := 0) hdrop rfl

/-- `for` runs the command behind its number, if the third token is not another `for`. -/
theorem Tokens.runCommand_nested {j : Nat} {number command third : List Char}
    {rest : List (List Char)}
    (hdrop : ws.drop j = "for".toList :: number :: command :: third :: rest)
    (hother : third ≠ "for".toList) (fuel : Nat) (nrTokens : Int) :
    s.runCommand (fuel + 1) nrTokens j =
      (repeatM (fun s => Prod.snd <$> Shell.runCommand fuel s nrTokens (j + 2))
        (atoi number).toNat { s with name := "for".toList } >>= fun s => .ok (1, s)) := by
  rw [runCommand_for (htokens.head hdrop), htokens.string_drop (i := 1) hdrop rfl,
    htokens.string_drop (i := 3) hdrop rfl, ok_bind, ok_bind, if_neg hother]
  rfl

/-- `execvp` reads all words from a token on, if there is a null pointer behind them. -/
theorem Tokens.argv (i : Nat) (hi : i ≤ ws.length) :
    argv s.command (s.tokens.drop i) =
      if spare = 0 then .error .outOfBounds else .ok (ws.drop i) := by
  obtain ⟨places, hlayout, rfl⟩ := htokens
  rw [List.length_map] at hi
  rw [hlayout.tokens_eq, List.drop_append_of_le_length (by simpa using hi), ← List.map_drop,
    ← List.map_drop]
  induction places.drop i with
  | nil =>
      cases spare with
      | zero => rfl
      | succ spare => rfl
  | cons p rest ih =>
      rw [List.map_cons, List.cons_append, Shell.argv, ih]
      by_cases hspare : spare = 0
      · simp only [if_pos hspare]
        rfl
      · simp only [if_neg hspare, ok_bind]
        rfl

end Reading

/-! ## Copying a token over its own word -/

section Copying

variable {command : List Char} {tokens : List (Option Nat)} {places : List Nat} {spare b : Nat}
  {dest start : Nat} (hlayout : Layout command tokens places spare) (hb : Even b)
  (hdest : places[b]? = some dest) (hstart : places[b + 2]? = some start)
  (hapart : dest + (stringAt NUL command start).length < start)
include hlayout hb hdest hstart hapart

/-- Only the token itself and the one behind it are changed, and these still end in time. -/
theorem Layout.stringAt_copied {i p : Nat} (hp : places[i]? = some p) :
    (¬ (i = b ∨ i = b + 1) → stringAt NUL
        (overwrite command dest (stringAt NUL command start ++ [NUL])) p = stringAt NUL command p) ∧
      (i = b ∨ i = b + 1 → p + (stringAt NUL
        (overwrite command dest (stringAt NUL command start ++ [NUL])) p).length < start) := by
  have hin := hlayout.bounded start (List.mem_of_getElem? hstart)
  have hlength : (stringAt NUL command start ++ [NUL]).length =
      (stringAt NUL command start).length + 1 := by simp
  have hafter : dest + (stringAt NUL command start).length < p →
      stringAt NUL (overwrite command dest (stringAt NUL command start ++ [NUL])) p =
        stringAt NUL command p :=
    fun hlt => stringAt_overwrite_after (by omega) (by omega)
  refine ⟨fun hother => ?_, fun hnear => ?_⟩
  · rcases Nat.lt_or_ge i b with hlt | hge
    · have hend := hlayout.apart i b p dest hlt hb hp hdest
      exact stringAt_overwrite_before hend (by omega)
    · apply hafter
      rcases Nat.eq_or_lt_of_le (show b + 2 ≤ i by omega) with rfl | hlt
      · rw [hstart] at hp
        cases hp
        exact hapart
      · have hle := hlayout.sorted _ _ _ _ hlt hstart hp
        omega
  · -- the number behind may keep its place, or become the end of the copy
    by_cases hover : p ≤ dest + (stringAt NUL command start).length
    · have hle : dest ≤ p := by
        rcases hnear with rfl | rfl
        · rw [hdest] at hp
          cases hp
          exact le_rfl
        · exact (hlayout.sorted _ _ _ _ (Nat.lt_succ_self b) hdest hp).le
      rw [stringAt_overwrite_inside (by omega) (nul_notMem_stringAt command start) hle hover,
        List.length_drop]
      omega
    · rw [hafter (by omega)]
      exact hlayout.apart i (b + 2) p start (by omega) (hb.add even_two) hp hstart

theorem Layout.copied :
    Layout (overwrite command dest (stringAt NUL command start ++ [NUL])) tokens places spare := by
  have hin := hlayout.bounded start (List.mem_of_getElem? hstart)
  refine ⟨hlayout.tokens_eq, fun place hplace => ?_, hlayout.sorted, fun i j p q hij hj hp hq => ?_⟩
  · rw [length_overwrite (by rw [List.length_append, List.length_singleton]; omega)]
    exact hlayout.bounded place hplace
  · obtain ⟨hsame, hnear⟩ := hlayout.stringAt_copied hb hdest hstart hapart hp
    by_cases hi : i = b ∨ i = b + 1
    · have hend := hnear hi
      have hle : b + 2 ≤ j := by
        obtain ⟨b', rfl⟩ := hb
        obtain ⟨j', rfl⟩ := hj
        omega
      rcases Nat.eq_or_lt_of_le hle with rfl | hlt
      · rw [hstart] at hq
        cases hq
        exact hend
      · have hlt := hlayout.sorted _ _ _ _ hlt hstart hq
        omega
    · rw [hsame hi]
      exact hlayout.apart i j p q hij hj hp hq

end Copying

/-- Copying a token over its own word fails if the two overlap. Otherwise it changes that word and
the one behind it. -/
theorem Tokens.copyToken {s : Shell} {ws : List (List Char)} {spare b : Nat}
    (htokens : s.Tokens ws spare) (hb : Even b) (hlt : b + 2 < ws.length) :
    Within (fun fault => fault = .overlap)
      (fun s' => s'.log = s.log ∧ ∃ ws', s'.Tokens ws' spare ∧ ws'.length = ws.length ∧
        ∀ i, ¬ (i = b ∨ i = b + 1) → ws'[i]? = ws[i]?)
      (s.copyToken b (b + 2)) := by
  obtain ⟨places, hlayout, rfl⟩ := htokens
  rw [List.length_map] at hlt
  obtain ⟨dest, hdest⟩ : ∃ dest, places[b]? = some dest := ⟨_, List.getElem?_eq_getElem (by omega)⟩
  obtain ⟨start, hstart⟩ : ∃ start, places[b + 2]? = some start :=
    ⟨_, List.getElem?_eq_getElem (by omega)⟩
  have hplace : ∀ i p, places[i]? = some p → s.place i = .ok p := by
    intro i p hp
    have hi := (List.getElem?_eq_some_iff.mp hp).1
    rw [place, hlayout.tokens_eq, List.getElem?_append_left (by simpa using hi),
      List.getElem?_map, hp]
    rfl
  have hin := hlayout.bounded start (List.mem_of_getElem? hstart)
  have hbefore := hlayout.sorted _ _ _ _ (show b < b + 2 by omega) hdest hstart
  simp only [Shell.copyToken, hplace _ _ hdest, hplace _ _ hstart, ok_bind]
  refine Within.ite (fun hapart => ?_) (fun _ => rfl)
  have hapart : dest + (stringAt NUL s.command start).length < start := by omega
  rw [if_pos (by omega)]
  refine ⟨rfl, _, ⟨places, hlayout.copied hb hdest hstart hapart, rfl⟩, by simp, fun i hi => ?_⟩
  rw [List.getElem?_map, List.getElem?_map]
  cases hp : places[i]? with
  | none => rfl
  | some p =>
      exact congrArg some ((hlayout.stringAt_copied hb hdest hstart hapart hp).1 hi)

/-! ## A line -/

section Line

variable {text : List Char} (htext : NUL ∉ text) (after : List Char)
include htext

theorem layout_of_text (spare : Nat) :
    Layout (blank NUL isspace text ++ NUL :: after)
      ((wordStarts isspace false 0 text).map some ++ List.replicate spare none)
      (wordStarts isspace false 0 text) spare := by
  have hstring : ∀ (i p : Nat), (wordStarts isspace false 0 text)[i]? = some p →
      stringAt NUL (blank NUL isspace text ++ NUL :: after) p = firstRun isspace (text.drop p) := by
    intro i p hp
    have hlt := lt_length_of_mem_wordStarts (List.mem_of_getElem? hp)
    exact stringAt_blank htext after (by omega)
  have hapart : ∀ (i j p q : Nat), i < j → (wordStarts isspace false 0 text)[i]? = some p →
      (wordStarts isspace false 0 text)[j]? = some q →
      p + (firstRun isspace (text.drop p)).length < q := by
    intro i j p q hij hp hq
    obtain ⟨hi, rfl⟩ := List.getElem?_eq_some_iff.mp hp
    obtain ⟨hj, rfl⟩ := List.getElem?_eq_some_iff.mp hq
    exact List.pairwise_iff_getElem.mp (wordStarts_spaced false [] text) i j hi hj hij
  refine ⟨rfl, fun place hplace => ?_, fun i j p q hij hp hq => ?_, fun i j p q hij _ hp hq => ?_⟩
  · have hlt := lt_length_of_mem_wordStarts hplace
    simp only [List.length_append, length_blank]
    omega
  · have hlt := hapart i j p q hij hp hq
    omega
  · rw [hstring i p hp]
    exact hapart i j p q hij hp hq

/-- The words of a line are the tokens, and there are null pointers behind them. -/
theorem parsed_tokens (hfits : (words isspace text).length ≤ MAX_NR_TOKENS) :
    ∃ p, Pa1.parseCommand (text ++ NUL :: after) (List.replicate MAX_NR_TOKENS none) =
        .ok (if 0 < p.nrTokens then 1 else 0, p) ∧
      p.nrTokens = (words isspace text).length ∧
      ∀ s : Shell, Tokens { s with command := p.command, tokens := p.tokens }
        (words isspace text) (MAX_NR_TOKENS - (words isspace text).length) := by
  have hlength : (words isspace text).length ≤
      (List.replicate (α := Option Nat) MAX_NR_TOKENS none).length := by
    simpa using hfits
  have hscan := scan_text htext after hlength
  rw [List.drop_replicate] at hscan
  have hlayout := layout_of_text htext after (MAX_NR_TOKENS - (words isspace text).length)
  exact ⟨_, by rw [Pa1.parseCommand, hscan]; rfl, rfl,
    fun s => ⟨_, hlayout, strings_at_starts htext after⟩⟩

/-- A turn on a line with words runs these. -/
theorem turn_eq (s : Shell) (hne : words isspace text ≠ [])
    (hfits : (words isspace text).length ≤ MAX_NR_TOKENS) :
    ∃ s' : Shell, s'.Tokens (words isspace text) (MAX_NR_TOKENS - (words isspace text).length) ∧
      s'.log = s.log ∧ ∀ fuel, s.turn fuel (text ++ NUL :: after) =
        s'.runCommand fuel (words isspace text).length 0 := by
  obtain ⟨p, hparse, hcount, htokens⟩ := parsed_tokens htext after hfits
  have hpos : 0 < p.nrTokens := hcount ▸ List.length_pos_of_ne_nil hne
  refine ⟨_, htokens s, rfl, fun fuel => ?_⟩
  rw [turn, hparse, ok_bind, ← hcount]
  simp only [if_pos hpos]
  rfl

/-- A line with more words than there are tokens is not parsed. -/
theorem turn_overfull (fuel : Nat) (s : Shell)
    (hfull : MAX_NR_TOKENS < (words isspace text).length) :
    s.turn fuel (text ++ NUL :: after) = .error .outOfBounds := by
  rw [turn, Pa1.parseCommand, scan_overfull false 0 htext after]
  · rfl
  · rw [wordStarts_length, List.length_replicate]
    omega
  · exact Nat.zero_le _

end Line

end OperatingSystem.Shell
