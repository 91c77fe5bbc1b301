import OperatingSystem.ShellTokens

/-!
# When `for` writes to the tokens

`run_command` takes the third token after a `for` for a nested loop if it is `for`, copies the
token before it over the word `for`, and runs the command from the same token on. So no level of
the recursion begins behind that token, and the words that it reads are all there.
-/

namespace OperatingSystem.Shell

open OperatingSystem.Parser

/-- The token at `b + 3` of `n` is `for`, and the programs that have been launched since `log` got
the words from `b`, or from an earlier token, up to the last one. -/
def Rewritten (n b spare : Nat) (log : List Act) (s : Shell) : Prop :=
  (∃ ws, s.Tokens ws spare ∧ ws.length = n ∧ ws[b + 3]? = some "for".toList) ∧
    ∃ acts, s.log = log ++ acts ∧ ∀ argv, Act.launch argv ∈ acts → n ≤ b + argv.length

theorem copyOut_within (src : List Char) :
    Within (fun fault => fault ≠ .nullPointer) (fun _ => True) (copyOut src) :=
  Within.ite (fun _ => trivial) (fun _ => Fault.noConfusion)

section Rewritten

variable {n b spare : Nat} {log : List Act} {s : Shell}

/-- What is done besides does not matter. -/
theorem Rewritten.act (hinv : Rewritten n b spare log s) {s' : Shell}
    (hcommand : s'.command = s.command) (htokens : s'.tokens = s.tokens) {a : Act}
    (hlog : s'.log = s.log ++ [a]) (ha : ∀ argv, a = .launch argv → n ≤ b + argv.length) :
    Rewritten n b spare log s' := by
  obtain ⟨⟨ws, hws, hwords⟩, acts, hacts, hlaunch⟩ := hinv
  refine ⟨⟨ws, hws.of_same hcommand htokens, hwords⟩, acts ++ [a], ?_, ?_⟩
  · rw [hlog, hacts, List.append_assoc]
  · intro argv hmem
    rcases List.mem_append.mp hmem with hmem | hmem
    · exact hlaunch argv hmem
    · exact ha argv (List.mem_singleton.mp hmem).symm

theorem Rewritten.copyToken (hinv : Rewritten n b spare log s) {j : Nat} (hj : Even j)
    (hle : j ≤ b) : Within (fun fault => fault ≠ .nullPointer) (Rewritten n b spare log)
      (s.copyToken j (j + 2)) := by
  obtain ⟨⟨ws, htokens, rfl, hfor⟩, acts, hacts, hlaunch⟩ := hinv
  have hlt := (List.getElem?_eq_some_iff.mp hfor).1
  refine (htokens.copyToken hj (by omega)).imp (fun fault hfault => by rw [hfault]; decide) ?_
  rintro s' ⟨hlog, ws', htokens', hlength, hsame⟩
  refine ⟨⟨ws', htokens', hlength, ?_⟩, acts, hlog.trans hacts, hlaunch⟩
  rw [hsame _ (by omega), hfor]

/-- No level reads a missing token, and what is launched gets the words up to the last one. -/
theorem Rewritten.runCommand (hb : Even b) (fuel : Nat) (hinv : Rewritten n b spare log s)
    (nrTokens : Int) {j : Nat} (hj : Even j) (hle : j ≤ b) :
    Within (fun fault => fault ≠ .nullPointer) (fun result => Rewritten n b spare log result.2)
      (s.runCommand fuel nrTokens j) := by
  induction fuel generalizing s nrTokens j with
  | zero => exact Fault.noConfusion
  | succ fuel ih =>
      have hrun : ∀ (times : Nat) (s : Shell) (nrTokens : Int) (j : Nat), Even j → j ≤ b →
          Rewritten n b spare log s → Within (fun fault => fault ≠ .nullPointer)
            (Rewritten n b spare log)
            (repeatM (fun s => Prod.snd <$> Shell.runCommand fuel s nrTokens j) times s) := by
        intro times s nrTokens j hj hle hinv
        exact Within.repeatM (fun s hinv => (ih hinv nrTokens hj hle).map) times hinv
      have hall := hinv
      obtain ⟨⟨ws, htokens, rfl, hfor⟩, -⟩ := hinv
      have hlt := (List.getElem?_eq_some_iff.mp hfor).1
      have hread : ∀ i ≤ b + 3, ∃ w, ws[i]? = some w ∧ s.string i = .ok w :=
        fun i hi => ⟨_, List.getElem?_eq_getElem (by omega),
          htokens.string (List.getElem?_eq_getElem (by omega))⟩
      obtain ⟨command, hw, hcommand⟩ := hread j (by omega)
      obtain ⟨next, -, hnext⟩ := hread (j + 1) (by omega)
      rcases command_cases command with hexit | rfl | rfl | rfl | rfl | hexternal
      · rw [runCommand_exit hcommand hexit]
        exact (copyOut_within _).bind fun name _ => hall
      · rw [runCommand_prompt hcommand, hnext, ok_bind]
        exact (copyOut_within _).bind fun prompt _ => hall
      · rw [runCommand_cd hcommand, hnext, ok_bind]
        exact hall.act rfl rfl rfl (by rintro argv ⟨⟩)
      · obtain ⟨third, hthird, hstring⟩ := hread (j + 3) (by omega)
        rw [runCommand_for hcommand, hnext, hstring, ok_bind, ok_bind]
        have hnamed : Rewritten ws.length b spare log { s with name := "for".toList } := hall
        refine Within.ite (fun _ => ?_) (fun hother => ?_)
        · have hcopied := Within.repeatM
            (fun s (hinv : Rewritten ws.length b spare log s) => hinv.copyToken hj hle)
            nrTokens.toNat hnamed
          exact hcopied.bind fun s hinv => (hrun _ s _ j hj hle hinv).bind fun s hinv => hinv
        · -- at `b` the third token is `for`, so the next level does not begin behind it
          have hne : j ≠ b := by
            rintro rfl
            exact hother (Option.some.inj (hthird.symm.trans hfor))
          have hlt : j + 2 ≤ b := by
            obtain ⟨j', rfl⟩ := hj
            obtain ⟨b', rfl⟩ := hb
            omega
          exact Within.bind (hrun _ _ _ (j + 2) (hj.add even_two) hlt hnamed)
            fun s hinv => hinv
      · rw [runCommand_timeout hcommand, hnext, ok_bind]
        refine Within.ite (fun _ => ?_) (fun _ => ?_)
        · exact hall.act rfl rfl rfl (by rintro argv ⟨⟩)
        · exact hall.act rfl rfl rfl (by rintro argv ⟨⟩)
      · rw [runCommand_external hcommand hexternal, htokens.argv j (by omega)]
        refine (copyOut_within _).bind fun name _ => ?_
        by_cases hspare : spare = 0
        · rw [if_pos hspare]
          exact Fault.noConfusion
        · rw [if_neg hspare]
          refine hall.act rfl rfl rfl ?_
          rintro argv ⟨⟩
          rw [List.length_drop]
          omega

end Rewritten

end OperatingSystem.Shell
