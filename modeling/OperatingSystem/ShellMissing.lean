import OperatingSystem.ShellRewriting

/-!
# Missing tokens

Which commands `run_command` reads beyond their last token. The levels of the recursion are
followed to the first command that lacks an argument, or to a token that `for` writes to, behind
which nothing is missing.
-/

namespace OperatingSystem.Shell

open OperatingSystem.Parser

/-- No token is missing: `prompt` and `cd` have an argument, and `for` has at least three. If the
third one is not another `for`, the command that is repeated must be complete as well. -/
def complete : List (List Char) → Bool
  | [] => false
  | command :: rest =>
    if "exit".toList.isPrefixOf command then true
    else if command = "prompt".toList ∨ command = "cd".toList then !rest.isEmpty
    else if command = "for".toList then
      match rest with
      | number :: command :: third :: rest =>
        third = "for".toList || atoi number ≤ 0 || complete (command :: third :: rest)
      | _ => false
    else true

section Complete

variable {command : List Char} {rest : List (List Char)}

theorem complete_cons :
    complete (command :: rest) =
      if "exit".toList.isPrefixOf command then true
      else if command = "prompt".toList ∨ command = "cd".toList then !rest.isEmpty
      else if command = "for".toList then
        match rest with
        | number :: command :: third :: rest =>
          third = "for".toList || atoi number ≤ 0 || complete (command :: third :: rest)
        | _ => false
      else true := by
  rcases rest with _ | ⟨_, _ | ⟨_, _ | ⟨_, _⟩⟩⟩
  all_goals
    rw [complete]
    all_goals simp

theorem complete_exit (hexit : "exit".toList.isPrefixOf command = true) :
    complete (command :: rest) = true := by
  rw [complete_cons, if_pos hexit]

theorem complete_prompt : complete ("prompt".toList :: rest) = !rest.isEmpty := by
  rw [complete_cons]
  rfl

theorem complete_cd : complete ("cd".toList :: rest) = !rest.isEmpty := by
  rw [complete_cons]
  rfl

theorem complete_for {number third : List Char} :
    complete ("for".toList :: number :: command :: third :: rest) =
      (decide (third = "for".toList) || decide (atoi number ≤ 0) ||
        complete (command :: third :: rest)) := by
  rw [complete_cons]
  rfl

/-- A `for` that is complete has a number and two more words. -/
theorem of_complete_for (hcomplete : complete ("for".toList :: rest) = true) :
    ∃ number command third after, rest = number :: command :: third :: after ∧
      (third = "for".toList ∨ atoi number ≤ 0 ∨ complete (command :: third :: after) = true) := by
  rcases rest with _ | ⟨number, _ | ⟨command, _ | ⟨third, after⟩⟩⟩
  · cases complete_cons ▸ hcomplete
  · cases complete_cons ▸ hcomplete
  · cases complete_cons ▸ hcomplete
  · simp only [complete_for, Bool.or_eq_true, decide_eq_true_eq, or_assoc] at hcomplete
    exact ⟨number, command, third, after, rfl, hcomplete⟩

/-- One that is not lacks one of them, or it runs a command that is not complete. -/
theorem of_incomplete_for (hincomplete : complete ("for".toList :: rest) = false) :
    rest.length < 3 ∨ ∃ number command third after, rest = number :: command :: third :: after ∧
      third ≠ "for".toList ∧ 0 < atoi number ∧ complete (command :: third :: after) = false := by
  rcases rest with _ | ⟨number, _ | ⟨command, _ | ⟨third, after⟩⟩⟩
  · exact .inl (by decide)
  · exact .inl (by simp)
  · exact .inl (by simp)
  · simp only [complete_for, Bool.or_eq_false_iff, decide_eq_false_iff_not, not_le, and_assoc]
      at hincomplete
    exact .inr ⟨number, command, third, after, rfl, hincomplete⟩

theorem complete_timeout : complete ("timeout".toList :: rest) = true := by
  rw [complete_cons]
  rfl

theorem complete_external (hexternal : External command) :
    complete (command :: rest) = true := by
  rw [complete_cons, if_neg, if_neg, if_neg hexternal.not_for]
  · rw [not_or]
    exact ⟨hexternal.not_prompt, hexternal.not_cd⟩
  · rw [hexternal.not_exit]
    exact Bool.false_ne_true

end Complete

section Runs

variable {s : Shell} {ws : List (List Char)} {spare : Nat} (htokens : s.Tokens ws spare)
include htokens

/-- A `for` without two more words behind its number looks for the third token. -/
theorem runCommand_for_short {j : Nat} (hj : Even j) {rest : List (List Char)}
    (hdrop : ws.drop j = "for".toList :: rest) (hshort : rest.length < 3) (hspare : 0 < spare)
    (heven : Even ws.length → 1 < spare) (fuel : Nat) (nrTokens : Int) :
    s.runCommand (fuel + 1) nrTokens j = .error .nullPointer := by
  have hlength : ws.length = j + 1 + rest.length := by
    have hsum := congrArg List.length hdrop
    rw [List.length_drop, List.length_cons] at hsum
    omega
  rw [runCommand_for (htokens.head hdrop)]
  cases rest with
  | nil =>
      rw [List.length_nil] at hlength
      rw [htokens.string_null (by omega) (by omega)]
      rfl
  | cons number rest =>
      have hthird : s.string (j + 3) = .error .nullPointer := by
        rw [List.length_cons] at hlength hshort
        rcases Nat.eq_zero_or_pos rest.length with hnone | hone
        · -- the array has an even length, so two null pointers are left
          have htwo := heven (by rw [hlength, hnone]; simpa [Nat.even_add_one] using hj)
          exact htokens.string_null (by omega) (by omega)
        · exact htokens.string_null (by omega) (by omega)
      rw [htokens.string_drop (i := 1) hdrop rfl, hthird]
      rfl

/-- If a token is missing, the shell gets to it. -/
theorem runCommand_incomplete {j : Nat} (hj : Even j) (hle : j ≤ ws.length)
    (hincomplete : complete (ws.drop j) = false) (hspare : 0 < spare)
    (heven : Even ws.length → 1 < spare) {fuel : Nat} (hfuel : ws.length < fuel + j)
    (nrTokens : Int) : s.runCommand fuel nrTokens j = .error .nullPointer := by
  induction fuel generalizing s j with
  | zero => omega
  | succ fuel ih =>
      have hlength := List.length_drop (i := j) (l := ws)
      cases hdrop : ws.drop j with
      | nil =>
          rw [hdrop, List.length_nil] at hlength
          rw [Shell.runCommand, htokens.string_null (by omega) (by omega)]
          rfl
      | cons command rest =>
          have hcommand := htokens.head hdrop
          rw [hdrop] at hincomplete hlength
          rw [List.length_cons] at hlength
          have hnext : rest = [] → s.string (j + 1) = .error .nullPointer := by
            rintro rfl
            rw [List.length_nil] at hlength
            exact htokens.string_null (by omega) (by omega)
          rcases command_cases command with hexit | rfl | rfl | rfl | rfl | hexternal
          · rw [complete_exit hexit] at hincomplete
            cases hincomplete
          · rw [complete_prompt] at hincomplete
            rw [runCommand_prompt hcommand, hnext (by simpa using hincomplete)]
            rfl
          · rw [complete_cd] at hincomplete
            rw [runCommand_cd hcommand, hnext (by simpa using hincomplete)]
            rfl
          · rcases of_incomplete_for hincomplete with hshort | hlong
            · exact runCommand_for_short htokens hj hdrop hshort hspare heven fuel nrTokens
            · obtain ⟨number, command, third, after, rfl, hother, hpos, hincomplete⟩ := hlong
              have hdrop' := drop_level hdrop
              rw [← hdrop'] at hincomplete
              have hnamed : Tokens { s with name := "for".toList } ws spare := htokens
              have hfail : Prod.snd <$> Shell.runCommand fuel { s with name := "for".toList }
                  nrTokens (j + 2) = .error .nullPointer := by
                simp only [List.length_cons] at hlength
                rw [ih hnamed (hj.add even_two) (by omega) hincomplete (by omega)]
                rfl
              rw [htokens.runCommand_nested hdrop hother, repeatM_error hfail (by omega)]
              rfl
          · rw [complete_timeout] at hincomplete
            cases hincomplete
          · rw [complete_external hexternal] at hincomplete
            cases hincomplete

/-- If no token is missing and none is written to, the shell reads only words. -/
theorem runCommand_complete (hnone : ∀ b, Even b → ws[b + 3]? ≠ some "for".toList) {j : Nat}
    (hj : Even j) (hcomplete : complete (ws.drop j) = true) {nrTokens : Int}
    (hnr : (ws.drop j).length = 1 → nrTokens = 1) (fuel : Nat) :
    Within (fun fault => fault ≠ .nullPointer)
      (fun result => result.2.command = s.command ∧ result.2.tokens = s.tokens)
      (s.runCommand fuel nrTokens j) := by
  induction fuel generalizing s j with
  | zero => exact Fault.noConfusion
  | succ fuel ih =>
      cases hdrop : ws.drop j with
      | nil =>
          rw [hdrop] at hcomplete
          cases hcomplete
      | cons command rest =>
          have hcommand := htokens.head hdrop
          have hlength := List.length_drop (i := j) (l := ws)
          rw [hdrop] at hcomplete hlength hnr
          rw [List.length_cons] at hlength hnr
          have hnext : rest ≠ [] → ∃ next, s.string (j + 1) = .ok next := by
            intro hne
            obtain ⟨next, rest, rfl⟩ := List.exists_cons_of_ne_nil hne
            exact ⟨next, htokens.string_drop (i := 1) hdrop rfl⟩
          rcases command_cases command with hexit | rfl | rfl | rfl | rfl | hexternal
          · rw [runCommand_exit hcommand hexit]
            exact (copyOut_within command).bind fun name _ => ⟨rfl, rfl⟩
          · rw [complete_prompt] at hcomplete
            obtain ⟨next, hnext⟩ := hnext (by simpa using hcomplete)
            rw [runCommand_prompt hcommand, hnext, ok_bind]
            exact (copyOut_within next).bind fun prompt _ => ⟨rfl, rfl⟩
          · rw [complete_cd] at hcomplete
            obtain ⟨next, hnext⟩ := hnext (by simpa using hcomplete)
            rw [runCommand_cd hcommand, hnext, ok_bind]
            exact ⟨rfl, rfl⟩
          · obtain ⟨number, command, third, after, rfl, hthen⟩ := of_complete_for hcomplete
            have hthird : ws[j + 3]? = some third := by
              rw [← List.getElem?_drop, hdrop]
              rfl
            have hother : third ≠ "for".toList := fun heq => hnone j hj (heq ▸ hthird)
            have hdrop' := drop_level hdrop
            rw [htokens.runCommand_nested hdrop hother]
            rcases hthen.resolve_left hother with hzero | hcomplete
            · rw [Int.toNat_of_nonpos hzero]
              exact ⟨rfl, rfl⟩
            · rw [← hdrop'] at hcomplete
              have hinner : ∀ s' : Shell, s'.command = s.command ∧ s'.tokens = s.tokens →
                  Within (fun fault => fault ≠ .nullPointer)
                    (fun s' => s'.command = s.command ∧ s'.tokens = s.tokens)
                    (Prod.snd <$> Shell.runCommand fuel s' nrTokens (j + 2)) := by
                rintro s' ⟨hsame, hsame'⟩
                rw [← hsame, ← hsame']
                refine (ih (htokens.of_same hsame hsame') (hj.add even_two)
                  hcomplete fun hone => ?_).map
                rw [hdrop'] at hone
                simp at hone
              refine Within.bind (Within.repeatM hinner _ ⟨rfl, rfl⟩) ?_
              exact fun s' hsame => hsame
          · rw [runCommand_timeout hcommand]
            refine Within.ite (fun _ => ⟨rfl, rfl⟩) (fun hmany => ?_)
            obtain ⟨next, hnext⟩ := hnext (by rintro rfl; exact hmany (hnr rfl))
            rw [hnext]
            exact ⟨rfl, rfl⟩
          · rw [runCommand_external hcommand hexternal, htokens.argv j (by omega)]
            refine (copyOut_within command).bind fun name _ => ?_
            by_cases hspare : spare = 0
            · rw [if_pos hspare]
              exact Fault.noConfusion
            · rw [if_neg hspare]
              exact ⟨rfl, rfl⟩

end Runs

/-! ## A line -/

/-- The shell reads a missing token on exactly the lines that are not complete. -/
theorem reads_no_missing_token_iff {text : List Char} (htext : NUL ∉ text) (after : List Char)
    (s : Shell) (hne : words isspace text ≠ [])
    (hfew : (words isspace text).length < MAX_NR_TOKENS) :
    (∀ fuel, s.turn fuel (text ++ NUL :: after) ≠ .error .nullPointer) ↔
      complete (words isspace text) = true := by
  obtain ⟨s', htokens, -, hturn⟩ := turn_eq htext after s hne hfew.le
  constructor
  · intro hreads
    by_contra hincomplete
    rw [Bool.not_eq_true] at hincomplete
    refine hreads ((words isspace text).length + 1) ?_
    rw [hturn]
    refine runCommand_incomplete htokens Even.zero (Nat.zero_le _) hincomplete (by omega) ?_
      (by omega) _
    have hmax : MAX_NR_TOKENS = 32 := rfl
    rintro ⟨half, hhalf⟩
    omega
  · intro hcomplete fuel hfault
    rw [hturn] at hfault
    by_cases hfor : ∃ b, Even b ∧ (words isspace text)[b + 3]? = some "for".toList
    · obtain ⟨b, hb, hfor⟩ := hfor
      have hinv : Rewritten (words isspace text).length b _ s'.log s' :=
        ⟨⟨_, htokens, rfl, hfor⟩, [], (List.append_nil _).symm, by simp⟩
      exact (hinv.runCommand hb fuel _ Even.zero (Nat.zero_le b)).allowed hfault rfl
    · rw [not_exists] at hfor
      have hreads := runCommand_complete htokens (fun b hb heq => hfor b ⟨hb, heq⟩) Even.zero
        hcomplete (fun hone => congrArg Int.ofNat hone) fuel
      exact hreads.allowed hfault rfl

theorem reads_no_missing_token_nested :
    Shell.turn 9 ⟨[], [], [], [], 2, []⟩ ("for 2 for 3 echo hello\n".toList ++ NUL :: []) ≠
      .error .nullPointer := by
  have hwords : words isspace "for 2 for 3 echo hello\n".toList = ["for".toList, "2".toList,
      "for".toList, "3".toList, "echo".toList, "hello".toList] := by decide
  refine (reads_no_missing_token_iff (by decide) [] _ (by rw [hwords]; decide)
    (by rw [hwords]; decide)).mpr ?_ 9
  rw [hwords]
  decide

theorem pwd_reads_missing_token :
    ¬ ∀ (text after : List Char) (s : Shell), NUL ∉ text → words isspace text ≠ [] →
      (words isspace text).length < MAX_NR_TOKENS →
      ∀ fuel, s.turn fuel (text ++ NUL :: after) ≠ .error .nullPointer := by
  intro hreads
  exact hreads "for 5 pwd\n".toList [] ⟨[], [], [], [], 2, []⟩ (by decide) (by decide) (by decide) 1
    (by decide)

end OperatingSystem.Shell
