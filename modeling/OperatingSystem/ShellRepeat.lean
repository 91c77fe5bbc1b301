import OperatingSystem.ShellRewriting

/-!
# Repeating a command

The command behind nested `for`s is launched as often as the product of their numbers, if every
level finds a third token that is not `for`, and if the numbers fit an `int`.
-/

namespace OperatingSystem.Shell

open OperatingSystem.Parser

/-! ## Nested loops -/

theorem IsDecimal.ne_for {number : List Char} (hdecimal : IsDecimal number) :
    number ≠ "for".toList := by
  rintro rfl
  exact absurd (List.all_eq_true.mp hdecimal.digits 'f' (by decide)) (by decide)

/-- `for N1 for N2 ... for Nk` in front of a command. -/
def nest : List (List Char) → List (List Char) → List (List Char)
  | [], command => command
  | number :: numbers, command => "for".toList :: number :: nest numbers command

/-- The loops with these numbers all run. -/
def Reached (numbers : List (List Char)) : Prop := ∀ number ∈ numbers, 0 < atoi number

/-- How often the command behind the loops is run. -/
def times (numbers : List (List Char)) : Nat := (numbers.map fun number => (atoi number).toNat).prod

theorem length_nest (numbers command : List (List Char)) :
    (nest numbers command).length = 2 * numbers.length + command.length := by
  induction numbers with
  | nil => simp [nest]
  | cons number numbers ih =>
      simp only [nest, List.length_cons, ih]
      omega

theorem nest_ne_nil {numbers args : List (List Char)} {command : List Char} :
    nest numbers (command :: args) ≠ [] := by
  cases numbers with
  | nil => exact List.cons_ne_nil _ _
  | cons number numbers => exact List.cons_ne_nil _ _

theorem nest_append (outer inner command : List (List Char)) :
    nest (outer ++ inner) command = nest outer (nest inner command) := by
  induction outer with
  | nil => rfl
  | cons number outer ih => simp only [List.cons_append, nest, ih]

theorem drop_nest (numbers command : List (List Char)) :
    (nest numbers command).drop (2 * numbers.length) = command := by
  induction numbers with
  | nil => rfl
  | cons number numbers ih => simpa [nest, Nat.mul_add] using ih

/-- The second word behind a loop is a number, or that of the command. -/
theorem nest_eq_cons {numbers : List (List Char)} (hdecimal : ∀ number ∈ numbers, IsDecimal number)
    (next : List Char) {third : List Char} (rest : List (List Char))
    (hother : third ≠ "for".toList) :
    ∃ next' third' rest', nest numbers (next :: third :: rest) = next' :: third' :: rest' ∧
      third' ≠ "for".toList := by
  cases numbers with
  | nil => exact ⟨next, third, rest, rfl, hother⟩
  | cons number numbers =>
      exact ⟨_, number, _, rfl, (hdecimal number List.mem_cons_self).ne_for⟩

/-- Nothing is written to the tokens, and `act` is done `count` times. -/
structure Adds (act : Act) (count : Nat) (s s' : Shell) : Prop where
  command : s'.command = s.command
  tokens : s'.tokens = s.tokens
  log : s'.log = s.log ++ List.replicate count act

theorem Adds.trans {act : Act} {count count' : Nat} {s s' s'' : Shell}
    (hfirst : Adds act count s s') (hthen : Adds act count' s' s'') :
    Adds act (count + count') s s'' := by
  refine ⟨hthen.command.trans hfirst.command, hthen.tokens.trans hfirst.tokens, ?_⟩
  rw [hthen.log, hfirst.log, List.append_assoc, List.replicate_append_replicate]

section Nest

variable {ws : List (List Char)} {spare fuel : Nat} {nrTokens : Int} {numbers : List (List Char)}
  (hdecimal : ∀ number ∈ numbers, IsDecimal number) {next third : List Char}
  {rest : List (List Char)} (hother : third ≠ "for".toList)
include hdecimal hother

/-- If the command launches `count` programs, the loops in front of it launch as many times more as
it is run. -/
theorem nest_ok {act : Act} {count ret j : Nat} {s : Shell}
    (hbody : Reached numbers → ∀ s : Shell, s.Tokens ws spare →
      ∃ s', s.runCommand fuel nrTokens (j + 2 * numbers.length) = .ok (ret, s') ∧
        Adds act count s s')
    (hdrop : ws.drop j = nest numbers (next :: third :: rest)) (htokens : s.Tokens ws spare) :
    ∃ ret' s', s.runCommand (fuel + numbers.length) nrTokens j = .ok (ret', s') ∧
      (numbers ≠ [] → ret' = 1) ∧ Adds act (times numbers * count) s s' := by
  induction numbers generalizing j s with
  | nil =>
      obtain ⟨s', hrun, hadds⟩ := hbody (by simp [Reached]) s htokens
      refine ⟨ret, s', hrun, fun hne => absurd rfl hne, ?_⟩
      rwa [times, List.map_nil, List.prod_nil, Nat.one_mul]
  | cons number numbers ih =>
      obtain ⟨-, hdecimal⟩ := List.forall_mem_cons.mp hdecimal
      have hdrop' := drop_level hdrop
      obtain ⟨next', third', rest', hinner, hother'⟩ := nest_eq_cons hdecimal next rest hother
      rw [nest, hinner] at hdrop
      have hindex : j + 2 + 2 * numbers.length = j + 2 * (number :: numbers).length := by
        rw [List.length_cons]
        omega
      have hloop : ∃ s', repeatM (fun s => Prod.snd <$>
          Shell.runCommand (fuel + numbers.length) s nrTokens (j + 2)) (atoi number).toNat
          { s with name := "for".toList } = .ok s' ∧
            Adds act ((atoi number).toNat * (times numbers * count)) s s' := by
        by_cases hpos : 0 < atoi number
        · apply repeatM_ok fun i s' => Adds act (i * (times numbers * count)) s s'
          · exact ⟨rfl, rfl, by simp⟩
          · intro i state hstate
            have hbody' := fun hreached => hbody (List.forall_mem_cons.mpr ⟨hpos, hreached⟩)
            obtain ⟨ret', s', hrun, -, hadds⟩ := ih hdecimal (hindex ▸ hbody') hdrop'
              (htokens.of_same hstate.command hstate.tokens)
            refine ⟨s', by rw [hrun]; rfl, ?_⟩
            rw [Nat.succ_mul]
            exact hstate.trans hadds
        · rw [Int.toNat_of_nonpos (not_lt.mp hpos)]
          exact ⟨_, rfl, rfl, rfl, by simp⟩
      obtain ⟨s', hloop, hadds⟩ := hloop
      refine ⟨1, s', ?_, fun _ => rfl, ?_⟩
      · rw [List.length_cons, ← Nat.add_assoc, htokens.runCommand_nested hdrop hother', hloop]
        rfl
      · rwa [times, List.map_cons, List.prod_cons, Nat.mul_assoc]

/-- If the command fails, so do the loops in front of it. -/
theorem nest_error {fault : Fault} {j : Nat} {s : Shell} (hreached : Reached numbers)
    (hbody : ∀ s : Shell, s.Tokens ws spare →
      s.runCommand fuel nrTokens (j + 2 * numbers.length) = .error fault)
    (hdrop : ws.drop j = nest numbers (next :: third :: rest)) (htokens : s.Tokens ws spare) :
    s.runCommand (fuel + numbers.length) nrTokens j = .error fault := by
  induction numbers generalizing j s with
  | nil => exact hbody s htokens
  | cons number numbers ih =>
      obtain ⟨-, hdecimal⟩ := List.forall_mem_cons.mp hdecimal
      obtain ⟨hpos, hreached⟩ := List.forall_mem_cons.mp hreached
      have hdrop' := drop_level hdrop
      obtain ⟨next', third', rest', hinner, hother'⟩ := nest_eq_cons hdecimal next rest hother
      rw [nest, hinner] at hdrop
      have hindex : j + 2 + 2 * numbers.length = j + 2 * (number :: numbers).length := by
        rw [List.length_cons]
        omega
      have hnamed : Tokens { s with name := "for".toList } ws spare := htokens
      have hfail : Prod.snd <$> Shell.runCommand (fuel + numbers.length)
          { s with name := "for".toList } nrTokens (j + 2) = .error fault := by
        rw [ih hdecimal hreached (hindex ▸ hbody) hdrop' hnamed]
        rfl
      rw [List.length_cons, ← Nat.add_assoc, htokens.runCommand_nested hdrop hother',
        repeatM_error hfail (by omega)]
      rfl

end Nest

/-! ## What is launched -/

/-- The built-in commands. -/
def builtins : List (List Char) :=
  ["exit".toList, "prompt".toList, "cd".toList, "for".toList, "timeout".toList]

/-- The loops turn as often as their numbers say, if these are read or one of them is 0. -/
theorem times_eq_iff {numbers : List (List Char)}
    (hdecimal : ∀ number ∈ numbers, IsDecimal number) :
    times numbers = (numbers.map decimal).prod ↔ (∃ number ∈ numbers, decimal number = 0) ∨
      ∀ number ∈ numbers, decimal number ≤ INT_MAX := by
  rw [times, prod_map_eq_iff fun number hmem => (hdecimal number hmem).atoi_le]
  refine or_congr Iff.rfl (forall₂_congr fun number hmem => ?_)
  exact (hdecimal number hmem).atoi_eq_iff

theorem times_eq_zero {numbers : List (List Char)} (hreached : ¬ Reached numbers) :
    times numbers = 0 := by
  simp only [Reached, not_forall, not_lt] at hreached
  obtain ⟨number, hmem, hnumber⟩ := hreached
  exact List.prod_eq_zero (List.mem_map.mpr ⟨number, hmem, Int.toNat_of_nonpos hnumber⟩)

/-- The run from the first token launches a program `count` times, and does nothing else. -/
def Launches (s : Shell) (nrTokens : Int) (count : Nat) (argv : List (List Char)) : Prop :=
  ∃ fuel s', s.runCommand fuel nrTokens 0 = .ok (1, s') ∧
    s'.log = s.log ++ List.replicate count (.launch argv)

def Fails (s : Shell) (nrTokens : Int) : Prop :=
  ∃ fuel fault, s.runCommand fuel nrTokens 0 = .error fault ∧ fault ≠ .outOfFuel

theorem Launches.not_fails {s : Shell} {nrTokens : Int} {count : Nat} {argv : List (List Char)}
    (hlaunches : Launches s nrTokens count argv) : ¬ Fails s nrTokens := by
  rintro ⟨fuel', fault, hrun', hout⟩
  obtain ⟨fuel, s', hrun, -⟩ := hlaunches
  cases runCommand_unique hrun hrun' nofun fun heq => hout (Except.error.inj heq)

theorem Launches.unique {s : Shell} {nrTokens : Int} {count count' : Nat} {argv : List (List Char)}
    (hlaunches : Launches s nrTokens count argv) (hlaunches' : Launches s nrTokens count' argv) :
    count = count' := by
  obtain ⟨fuel, s', hrun, hlog⟩ := hlaunches
  obtain ⟨fuel', s'', hrun', hlog'⟩ := hlaunches'
  cases runCommand_unique hrun hrun' nofun nofun
  rw [hlog, List.append_cancel_left_eq] at hlog'
  simpa using congrArg List.length hlog'

section Body

variable {s : Shell} {ws : List (List Char)} {spare j : Nat} {command : List Char}
  {args : List (List Char)} (htokens : s.Tokens ws spare) (hdrop : ws.drop j = command :: args)
  (hcommand : command ∉ builtins) (fuel : Nat) (nrTokens : Int)
include htokens hdrop

/-- A command that is too long does not fit `name`. -/
theorem run_long (hlong : ¬ command.length < MAX_TOKEN_LEN) :
    s.runCommand (fuel + 1) nrTokens j = .error .overflow := by
  have hstring := htokens.head hdrop
  rw [Shell.runCommand, hstring, ok_bind, copyOut, if_neg hlong]
  rfl

variable (hshort : command.length < MAX_TOKEN_LEN)
include hshort

theorem run_exit (hexit : "exit".toList.isPrefixOf command = true) :
    s.runCommand (fuel + 1) nrTokens j = .ok (0, { s with name := command }) := by
  have hstring := htokens.head hdrop
  rw [runCommand_exit hstring hexit, copyOut, if_pos hshort]
  rfl

include hcommand

theorem run_external (hexit : "exit".toList.isPrefixOf command = false) :
    s.runCommand (fuel + 1) nrTokens j = if spare = 0 then .error .outOfBounds
      else .ok (1, { s with name := command }.act (.launch (command :: args))) := by
  have hstring := htokens.head hdrop
  have hexternal : External command := by
    simp only [builtins, List.mem_cons, not_or] at hcommand
    exact ⟨hexit, hcommand.2.1, hcommand.2.2.1, hcommand.2.2.2.1, hcommand.2.2.2.2.1⟩
  have hj : j ≤ ws.length := by
    have hlength := congrArg List.length hdrop
    simp only [List.length_drop, List.length_cons] at hlength
    omega
  rw [runCommand_external hstring hexternal, htokens.argv j hj, copyOut, if_pos hshort, hdrop]
  by_cases hspare : spare = 0
  · rw [if_pos hspare, if_pos hspare]
    rfl
  · rw [if_neg hspare, if_neg hspare]
    rfl

end Body

section Outcome

variable {outer : List (List Char)} {last command : List Char} {args : List (List Char)}
  (hdecimal : ∀ number ∈ outer ++ [last], IsDecimal number) (hcommand : command ∉ builtins)
  {s : Shell} {spare : Nat}
  (htokens : s.Tokens (nest (outer ++ [last]) (command :: args)) spare) (nrTokens : Int)
include htokens

/-- If the third token is `for`, what is launched has too many arguments. -/
theorem launched_wrongly {rest : List (List Char)} (hargs : args = "for".toList :: rest)
    {count : Nat} (hlaunches : Launches s nrTokens count (command :: args)) : count = 0 := by
  subst hargs
  obtain ⟨fuel, s', hrun, hlog⟩ := hlaunches
  have hfor : (nest (outer ++ [last]) (command :: "for".toList :: rest))[2 * outer.length + 3]? =
      some "for".toList := by
    rw [← List.getElem?_drop, nest_append, drop_nest]
    rfl
  have hinv : Rewritten _ (2 * outer.length) spare s.log s :=
    ⟨⟨_, htokens, rfl, hfor⟩, [], (List.append_nil _).symm, by simp⟩
  have hresult := hinv.runCommand (even_two_mul _) fuel nrTokens Even.zero (Nat.zero_le _)
  obtain ⟨-, acts, hacts, hlaunch⟩ := hresult.good hrun
  rw [hlog, List.append_cancel_left_eq] at hacts
  by_contra hcount
  have hlength := hlaunch _ (hacts ▸ List.mem_replicate.mpr ⟨hcount, rfl⟩)
  simp only [length_nest, List.length_append, List.length_cons, List.length_nil] at hlength
  omega

include hdecimal

/-- Without an argument behind the command there is no third token. -/
theorem no_argument (hreached : Reached outer) (hargs : args = []) : Fails s nrTokens := by
  subst hargs
  have hlast := (hdecimal last (by simp)).ne_for
  have hwords := nest_append outer [last] [command]
  have hbody : ∀ s : Shell, s.Tokens (nest (outer ++ [last]) [command]) spare →
      s.runCommand 1 nrTokens (0 + 2 * outer.length) =
        .error (if spare = 0 then .outOfBounds else .nullPointer) := by
    intro s htokens
    have hdrop := hwords ▸ drop_nest outer (nest [last] [command])
    have hend : 2 * outer.length + 3 = (nest (outer ++ [last]) [command]).length := by
      simp only [length_nest, List.length_append, List.length_singleton]
      omega
    rw [Nat.zero_add, runCommand_for (htokens.head hdrop),
      htokens.string_drop (i := 1) hdrop rfl, hend, htokens.string_end]
    rfl
  refine ⟨_, _, nest_error (List.forall_mem_append.mp hdecimal).1 hlast
    hreached hbody hwords htokens, ?_⟩
  split_ifs <;> exact Fault.noConfusion

include hcommand

/-- The loops launch the command as often as it is run. -/
theorem launches (hloopable : Reached outer → (∃ arg rest, args = arg :: rest ∧
      arg ≠ "for".toList) ∧ (Reached (outer ++ [last]) → spare ≠ 0 ∧
        "exit".toList.isPrefixOf command = false ∧ command.length < MAX_TOKEN_LEN)) :
    Launches s nrTokens (times (outer ++ [last])) (command :: args) := by
  by_cases hreached : Reached outer
  · obtain ⟨⟨arg, rest, rfl, hother⟩, hlaunch⟩ := hloopable hreached
    have hbody : Reached (outer ++ [last]) → ∀ s : Shell,
        s.Tokens (nest (outer ++ [last]) (command :: arg :: rest)) spare →
        ∃ s', s.runCommand 1 nrTokens (0 + 2 * (outer ++ [last]).length) = .ok (1, s') ∧
          Adds (.launch (command :: arg :: rest)) 1 s s' := by
      intro hreached s htokens
      obtain ⟨hspare, hexit, hshort⟩ := hlaunch hreached
      rw [Nat.zero_add, run_external htokens (drop_nest _ _) hcommand 0 nrTokens hshort hexit,
        if_neg hspare]
      exact ⟨_, rfl, rfl, rfl, rfl⟩
    obtain ⟨ret, s', hrun, hret, hadds⟩ := nest_ok hdecimal hother hbody rfl htokens
    rw [hret (by simp)] at hrun
    rw [Nat.mul_one] at hadds
    exact ⟨_, s', hrun, hadds.log⟩
  · have hnone : times (outer ++ [last]) = 0 := by
      apply times_eq_zero
      exact fun hall => hreached fun number hmem => hall number (List.mem_append_left _ hmem)
    have hbody : Reached outer → ∀ s : Shell,
        s.Tokens (nest (outer ++ [last]) (command :: args)) spare →
        ∃ s', s.runCommand 1 nrTokens (0 + 2 * outer.length) = .ok (1, s') ∧
          Adds (.launch (command :: args)) 0 s s' :=
      fun hall => absurd hall hreached
    have hlast := (hdecimal last (by simp)).ne_for
    obtain ⟨ret, s', hrun, hret, hadds⟩ := nest_ok
      (List.forall_mem_append.mp hdecimal).1 hlast hbody
      (nest_append outer [last] (command :: args)) htokens
    rw [hret (by rintro rfl; exact hreached (by simp [Reached]))] at hrun
    rw [Nat.mul_zero] at hadds
    exact ⟨_, s', hrun, hnone ▸ hadds.log⟩

/-- If the command is reached and cannot be launched, the shell fails, or nothing is launched. -/
theorem not_launched (hreached : Reached (outer ++ [last])) {arg : List Char}
    {rest : List (List Char)} (hargs : args = arg :: rest) (hother : arg ≠ "for".toList)
    (hnot : ¬ (spare ≠ 0 ∧ "exit".toList.isPrefixOf command = false ∧
      command.length < MAX_TOKEN_LEN)) :
    Fails s nrTokens ∨ Launches s nrTokens 0 (command :: args) := by
  subst hargs
  have hdrop := drop_nest (outer ++ [last]) (command :: arg :: rest)
  have herror : ∀ fault : Fault, fault ≠ .outOfFuel →
      (∀ s : Shell, s.Tokens (nest (outer ++ [last]) (command :: arg :: rest)) spare →
        s.runCommand 1 nrTokens (0 + 2 * (outer ++ [last]).length) = .error fault) →
      Fails s nrTokens :=
    fun fault hfault hbody =>
      ⟨_, fault, nest_error hdecimal hother hreached hbody rfl htokens, hfault⟩
  by_cases hshort : command.length < MAX_TOKEN_LEN
  · cases hexit : "exit".toList.isPrefixOf command with
    | true =>
        have hbody : Reached (outer ++ [last]) → ∀ s : Shell,
            s.Tokens (nest (outer ++ [last]) (command :: arg :: rest)) spare →
            ∃ s', s.runCommand 1 nrTokens (0 + 2 * (outer ++ [last]).length) = .ok (0, s') ∧
              Adds (.launch (command :: arg :: rest)) 0 s s' := by
          intro _ s htokens
          rw [Nat.zero_add, run_exit htokens hdrop 0 nrTokens hshort hexit]
          exact ⟨_, rfl, rfl, rfl, (List.append_nil _).symm⟩
        obtain ⟨ret, s', hrun, hret, hadds⟩ := nest_ok hdecimal hother hbody rfl htokens
        rw [hret (by simp)] at hrun
        rw [Nat.mul_zero] at hadds
        exact .inr ⟨_, s', hrun, hadds.log⟩
    | false =>
        have hspare : spare = 0 := by
          by_contra hspare
          exact hnot ⟨hspare, hexit, hshort⟩
        refine .inl (herror .outOfBounds Fault.noConfusion fun s htokens => ?_)
        rw [Nat.zero_add, run_external htokens hdrop hcommand 0 nrTokens hshort hexit,
          if_pos hspare]
  · refine .inl (herror .overflow Fault.noConfusion fun s htokens => ?_)
    rw [Nat.zero_add, run_long htokens hdrop 0 nrTokens hshort]

end Outcome

/-! ## A line -/

/-- The line runs the command as often as the product of the numbers says, and nothing else. -/
def Repeats (s : Shell) (line : List Char) (numbers argv : List (List Char)) : Prop :=
  ∃ fuel s', s.turn fuel line = .ok (1, s') ∧
    s'.log = s.log ++ List.replicate (numbers.map decimal).prod (.launch argv)

/-- The words fit the array, the numbers an `int`; and the innermost loop, if it is reached, finds a
third token that is not `for`, and if it runs the command, that this can be launched. -/
structure Repeatable (numbers : List (List Char)) (command : List Char)
    (args : List (List Char)) : Prop where
  few : (nest numbers (command :: args)).length ≤ MAX_NR_TOKENS
  fits : (∃ number ∈ numbers, decimal number = 0) ∨ ∀ number ∈ numbers, decimal number ≤ INT_MAX
  third : Reached numbers.dropLast → ∃ arg rest, args = arg :: rest ∧ arg ≠ "for".toList
  launched : Reached numbers → (nest numbers (command :: args)).length < MAX_NR_TOKENS ∧
    "exit".toList.isPrefixOf command = false ∧ command.length < MAX_TOKEN_LEN

/-- The innermost loop is reached and writes to the tokens, but does not run the command. -/
structure Idle (numbers args : List (List Char)) : Prop where
  reached : Reached numbers.dropLast
  third : args.head? = some "for".toList
  last : numbers.getLast?.map decimal = some 0

section Line

variable {text : List Char} (htext : NUL ∉ text) (after : List Char) (s : Shell)
  {numbers : List (List Char)} (hne : numbers ≠ [])
  (hdecimal : ∀ number ∈ numbers, IsDecimal number) {command : List Char}
  (hcommand : command ∉ builtins) {args : List (List Char)}
  (hwords : words isspace text = nest numbers (command :: args))
include htext hne hdecimal hcommand hwords

theorem repeats_of_repeatable (hrepeatable : Repeatable numbers command args) :
    Repeats s (text ++ NUL :: after) numbers (command :: args) := by
  obtain ⟨outer, last, rfl⟩ := (List.eq_nil_or_concat' numbers).resolve_left hne
  obtain ⟨hfew, hfits, hthird, hlaunched⟩ := hrepeatable
  rw [List.dropLast_concat] at hthird
  obtain ⟨s', htokens, hlog, hturn⟩ := turn_eq htext after s (hwords ▸ nest_ne_nil) (hwords ▸ hfew)
  rw [hwords] at htokens hturn
  have hloopable : Reached outer → (∃ arg rest, args = arg :: rest ∧ arg ≠ "for".toList) ∧
      (Reached (outer ++ [last]) →
        MAX_NR_TOKENS - (nest (outer ++ [last]) (command :: args)).length ≠ 0 ∧
        "exit".toList.isPrefixOf command = false ∧ command.length < MAX_TOKEN_LEN) := by
    refine fun hreached => ⟨hthird hreached, fun hall => ?_⟩
    obtain ⟨hlt, hrest⟩ := hlaunched hall
    exact ⟨by omega, hrest⟩
  obtain ⟨fuel, s'', hrun, hlog'⟩ := launches hdecimal hcommand htokens _ hloopable
  refine ⟨fuel, s'', (hturn fuel).trans hrun, ?_⟩
  rw [hlog', hlog, (times_eq_iff hdecimal).mpr hfits]

theorem repeatable_of_repeats
    (hrepeats : Repeats s (text ++ NUL :: after) numbers (command :: args)) :
    Repeatable numbers command args ∨ Idle numbers args := by
  obtain ⟨outer, last, rfl⟩ := (List.eq_nil_or_concat' numbers).resolve_left hne
  obtain ⟨fuel, final, hrun, hfinal⟩ := hrepeats
  have hfew : (nest (outer ++ [last]) (command :: args)).length ≤ MAX_NR_TOKENS := by
    by_contra hmany
    rw [turn_overfull htext after fuel s (by rw [hwords]; omega)] at hrun
    cases hrun
  obtain ⟨s', htokens, hlog, hturn⟩ := turn_eq htext after s (hwords ▸ nest_ne_nil) (hwords ▸ hfew)
  rw [hwords] at htokens hturn
  rw [hturn] at hrun
  rw [← hlog] at hfinal
  have hpos : ∀ number ∈ outer ++ [last], 0 < atoi number → decimal number ≠ 0 := by
    intro number hmem hreached
    have hle := (hdecimal number hmem).atoi_le
    omega
  have hzero : ((outer ++ [last]).map decimal).prod = 0 → ∃ number ∈ outer ++ [last],
      decimal number = 0 := by
    rw [List.prod_eq_zero_iff, List.mem_map]
    exact id
  have hlaunches : Launches s' (nest (outer ++ [last]) (command :: args)).length
      ((outer ++ [last]).map decimal).prod (command :: args) := ⟨fuel, final, hrun, hfinal⟩
  -- outside the conditions the shell fails, or what it launches is not the command
  by_cases hthird : Reached outer → ∃ arg rest, args = arg :: rest ∧ arg ≠ "for".toList
  · by_cases hlaunched : Reached (outer ++ [last]) →
        MAX_NR_TOKENS - (nest (outer ++ [last]) (command :: args)).length ≠ 0 ∧
        "exit".toList.isPrefixOf command = false ∧ command.length < MAX_TOKEN_LEN
    · have htimes := Launches.unique (launches hdecimal hcommand htokens _
        fun hreached => ⟨hthird hreached, hlaunched⟩) hlaunches
      refine .inl ⟨hfew, (times_eq_iff hdecimal).mp htimes, ?_, fun hall => ?_⟩
      · rwa [List.dropLast_concat]
      · obtain ⟨hspare, hrest⟩ := hlaunched hall
        exact ⟨by omega, hrest⟩
    · rw [Classical.not_imp] at hlaunched
      obtain ⟨hall, hnot⟩ := hlaunched
      obtain ⟨arg, rest, hargs, hother⟩ :=
        hthird fun number hmem => hall number (List.mem_append_left _ hmem)
      rcases not_launched hdecimal hcommand htokens _ hall hargs hother hnot with hfails | hnone
      · exact absurd hfails hlaunches.not_fails
      · obtain ⟨number, hmem, hnumber⟩ := hzero (hlaunches.unique hnone)
        exact absurd hnumber (hpos number hmem (hall number hmem))
  · rw [Classical.not_imp] at hthird
    obtain ⟨hreached, hthird⟩ := hthird
    cases hargs : args with
    | nil => exact absurd (no_argument hdecimal htokens _ hreached hargs) hlaunches.not_fails
    | cons arg rest =>
        have harg : arg = "for".toList := by
          by_contra hother
          exact hthird ⟨arg, rest, hargs, hother⟩
        subst harg
        obtain ⟨number, hmem, hnumber⟩ := hzero (launched_wrongly htokens _ hargs hlaunches)
        rcases List.mem_append.mp hmem with houter | hlast
        · exact absurd hnumber (hpos number hmem (hreached number houter))
        · rw [List.mem_singleton.mp hlast] at hnumber
          refine .inr ⟨by rwa [List.dropLast_concat], rfl, ?_⟩
          rw [List.getLast?_concat, Option.map_some, hnumber]

/-- The shell repeats a command exactly if it is repeatable, unless the innermost loop writes to the
tokens and then runs nothing. -/
theorem for_repeats :
    (Repeatable numbers command args →
        Repeats s (text ++ NUL :: after) numbers (command :: args)) ∧
      (Repeats s (text ++ NUL :: after) numbers (command :: args) →
        Repeatable numbers command args ∨ Idle numbers args) :=
  ⟨repeats_of_repeatable htext after s hne hdecimal hcommand hwords,
    repeatable_of_repeats htext after s hne hdecimal hcommand hwords⟩

end Line

theorem for_repeats_hello :
    Repeats ⟨[], [], [], [], 2, []⟩ ("for 2 for 3 echo hello world\n".toList ++ NUL :: [])
      ["2".toList, "3".toList] ["echo".toList, "hello".toList, "world".toList] := by
  have hdecimal : ∀ number ∈ ["2".toList, "3".toList], IsDecimal number := by
    intro number hmem
    simp only [List.mem_cons, List.not_mem_nil, or_false] at hmem
    rcases hmem with rfl | rfl
    · exact ⟨by decide, by decide⟩
    · exact ⟨by decide, by decide⟩
  exact (for_repeats (by decide) [] _ (by decide) hdecimal (by decide) (by decide)).1
    ⟨by decide, .inr (by decide), fun _ => ⟨_, _, rfl, by decide⟩, fun _ => by decide⟩

theorem pwd_not_repeated :
    ¬ ∀ (text after : List Char) (s : Shell) (numbers : List (List Char)) (command : List Char)
      (args : List (List Char)), NUL ∉ text → numbers ≠ [] →
      (∀ number ∈ numbers, IsDecimal number) → command ∉ builtins →
      words isspace text = nest numbers (command :: args) →
      Repeats s (text ++ NUL :: after) numbers (command :: args) := by
  intro hrepeats
  have hdecimal : ∀ number ∈ ["5".toList], IsDecimal number := by
    intro number hmem
    rw [List.mem_singleton.mp hmem]
    exact ⟨by decide, by decide⟩
  have hpwd := hrepeats "for 5 pwd\n".toList [] ⟨[], [], [], [], 2, []⟩ ["5".toList] "pwd".toList []
    (by decide) (by decide) hdecimal (by decide) (by decide)
  rcases repeatable_of_repeats (by decide) [] _ (by decide) hdecimal (by decide) (by decide) hpwd
    with hrepeatable | hidle
  · obtain ⟨arg, rest, hargs, -⟩ := hrepeatable.third (by simp [Reached])
    cases hargs
  · cases hidle.third

end OperatingSystem.Shell
