import OperatingSystem.PagingTrace

/-!
# Written traces

Each list of commands can be written as a trace, one line a command, with its numbers to any of
the three bases. The session of the trace is the run of the commands.
-/

namespace OperatingSystem.Paging

open OperatingSystem.Parser
open Loader (fgets toUnsigned content content_newline fgets_line)

set_option linter.style.nameCheck false

/-! ## Numbers -/

/-- The bases that a number can be written to. -/
inductive Radix where
  | octal
  | decimal
  | hexadecimal
deriving DecidableEq, Repr

def Radix.base : Radix → Nat
  | .octal => 8
  | .decimal => 10
  | .hexadecimal => 16

/-- What stands in front of the digits. -/
def Radix.mark : Radix → List Char
  | .octal => ['0']
  | .decimal => []
  | .hexadecimal => ['0', 'x']

def Radix.spell (radix : Radix) (n : Nat) : List Char := radix.mark ++ Nat.toDigits radix.base n

theorem mem_toDigits {base n : Nat} (hbase : 1 < base) {c : Char}
    (hc : c ∈ Nat.toDigits base n) : ∃ digit < base, c = digit.digitChar := by
  induction n using Nat.strong_induction_on with
  | _ n ih =>
      by_cases hlt : n < base
      · rw [Nat.toDigits_of_lt_base hlt, List.mem_singleton] at hc
        exact ⟨n, hlt, hc⟩
      · rw [Nat.toDigits_of_base_le hbase (not_lt.mp hlt), List.mem_append, List.mem_singleton]
          at hc
        rcases hc with hc | rfl
        · exact ih _ (Nat.div_lt_self (by omega) hbase) hc
        · exact ⟨n % base, Nat.mod_lt _ (by omega), rfl⟩

/-- What `strtoimax` makes of a digit. -/
theorem digitValue_digitChar : ∀ digit < 16, digitValue digit.digitChar = some digit := by decide

theorem digitChar_ne_x : ∀ digit < 16, digit.digitChar ≠ 'x' ∧ digit.digitChar ≠ 'X' := by decide

theorem digitChar_unsigned : ∀ digit < 16, isspace digit.digitChar = false ∧
    digit.digitChar ≠ '-' ∧ digit.digitChar ≠ '+' := by decide

theorem leadingNumber_toDigits {base : Nat} (hbase : 1 < base) (hle : base ≤ 16) (n : Nat) :
    leadingNumber base (Nat.toDigits base n) = n := by
  have hdigits : ∀ c ∈ Nat.toDigits base n, isDigitOf base c = true := by
    intro c hc
    obtain ⟨digit, hlt, rfl⟩ := mem_toDigits hbase hc
    simpa [isDigitOf, digitValue_digitChar digit (by omega)] using hlt
  rw [leadingNumber, List.takeWhile_eq_self_iff.mpr hdigits]
  clear hdigits
  induction n using Nat.strong_induction_on with
  | _ n ih =>
      by_cases hlt : n < base
      · rw [Nat.toDigits_of_lt_base hlt, List.foldl_cons, List.foldl_nil,
          digitValue_digitChar n (by omega)]
        simp
      · have hmod := Nat.mod_lt n (show 0 < base by omega)
        rw [Nat.toDigits_of_base_le hbase (not_lt.mp hlt), List.foldl_append,
          ih _ (Nat.div_lt_self (by omega) hbase), List.foldl_cons, List.foldl_nil,
          digitValue_digitChar _ (by omega)]
        exact Nat.div_add_mod n base

/-- A number does not begin with a zero. -/
theorem head_toDigits {base n : Nat} (hbase : 1 < base) (hn : 0 < n) :
    (Nat.toDigits base n).head? ≠ some '0' := by
  induction n using Nat.strong_induction_on with
  | _ n ih =>
      by_cases hlt : n < base
      · rw [Nat.toDigits_of_lt_base hlt, List.head?_cons, ne_eq, Option.some_inj,
          Nat.digitChar_eq_zero]
        omega
      · rw [Nat.toDigits_of_base_le hbase (not_lt.mp hlt),
          List.head?_append_of_ne_nil _ Nat.toDigits_ne_nil]
        exact ih _ (Nat.div_lt_self hn hbase) (Nat.div_pos (not_lt.mp hlt) (by omega))

/-- A number is read back to the base that it was written to. -/
theorem magnitude_spell (radix : Radix) (n : Nat) : magnitude (radix.spell n) = n := by
  cases radix with
  | octal =>
      have hvalue : leadingNumber 8 (Nat.toDigits 8 n) = n :=
        leadingNumber_toDigits (by decide) (by decide) n
      obtain ⟨c, rest, hdigits⟩ :=
        List.exists_cons_of_ne_nil (Nat.toDigits_ne_nil (n := n) (b := 8))
      obtain ⟨digit, hlt, hc⟩ := mem_toDigits (n := n) (show 1 < 8 by decide)
        (hdigits ▸ List.mem_cons_self : c ∈ Nat.toDigits 8 n)
      have hplain : c ≠ 'x' ∧ c ≠ 'X' := hc ▸ digitChar_ne_x digit (by omega)
      rw [hdigits] at hvalue
      change magnitude ('0' :: Nat.toDigits 8 n) = n
      rw [hdigits, magnitude, if_neg fun h => h.1.elim hplain.1 hplain.2, hvalue]
  | decimal =>
      have hvalue : leadingNumber 10 (Nat.toDigits 10 n) = n :=
        leadingNumber_toDigits (by decide) (by decide) n
      change magnitude (Nat.toDigits 10 n) = n
      rw [magnitude]
      · exact hvalue
      · intro x rest hdigits
        rcases Nat.eq_zero_or_pos n with rfl | hn
        · rw [Nat.toDigits_zero] at hdigits
          cases hdigits
        · have hhead := head_toDigits (show 1 < 10 by decide) hn
          rw [hdigits] at hhead
          exact absurd rfl hhead
  | hexadecimal =>
      have hvalue : leadingNumber 16 (Nat.toDigits 16 n) = n :=
        leadingNumber_toDigits (by decide) (by decide) n
      obtain ⟨c, rest, hdigits⟩ :=
        List.exists_cons_of_ne_nil (Nat.toDigits_ne_nil (n := n) (b := 16))
      obtain ⟨digit, hlt, hc⟩ := mem_toDigits (n := n) (show 1 < 16 by decide)
        (hdigits ▸ List.mem_cons_self : c ∈ Nat.toDigits 16 n)
      have hdigit : isDigitOf 16 c = true := by
        simpa [hc, isDigitOf, digitValue_digitChar digit hlt] using hlt
      change magnitude ('0' :: 'x' :: Nat.toDigits 16 n) = n
      rw [magnitude, if_pos ⟨.inl rfl, by rw [hdigits]; exact hdigit⟩, hvalue]

/-- It begins with a digit, so there is neither a space nor a sign in front of it. -/
theorem spell_eq_cons (radix : Radix) (n : Nat) :
    ∃ c rest, radix.spell n = c :: rest ∧ isspace c = false ∧ c ≠ '-' ∧ c ≠ '+' := by
  have hzero : isspace '0' = false ∧ '0' ≠ '-' ∧ '0' ≠ '+' := by decide
  cases radix with
  | octal => exact ⟨'0', _, rfl, hzero⟩
  | hexadecimal => exact ⟨'0', _, rfl, hzero⟩
  | decimal =>
      obtain ⟨c, rest, hdigits⟩ :=
        List.exists_cons_of_ne_nil (Nat.toDigits_ne_nil (n := n) (b := 10))
      obtain ⟨digit, hlt, rfl⟩ := mem_toDigits (n := n) (show 1 < 10 by decide)
        (hdigits ▸ List.mem_cons_self : c ∈ Nat.toDigits 10 n)
      exact ⟨_, rest, hdigits, digitChar_unsigned digit (by omega)⟩

theorem strtoimax_spell (radix : Radix) {n : Nat} (hn : n < 2 ^ 32) :
    toUnsigned (strtoimax (radix.spell n)) = n := by
  obtain ⟨c, rest, hspell, hspace, hminus, hplus⟩ := spell_eq_cons radix n
  have hmagnitude := magnitude_spell radix n
  rw [hspell] at hmagnitude ⊢
  have hread : strtoimax (c :: rest) =
      min (LONG_MAX : Int) (magnitude (c :: rest)) := by
    rw [strtoimax, List.dropWhile_cons_of_neg (by rw [hspace]; exact Bool.false_ne_true)]
    split
    · rename_i heq
      exact absurd (List.cons.inj heq).1 hminus
    · rename_i heq
      exact absurd (List.cons.inj heq).1 hplus
    · rfl
  have hmax : LONG_MAX = 9223372036854775807 := rfl
  rw [hread, hmagnitude, toUnsigned]
  omega

/-! ## Commands -/

/-- The word for the flags of a page. -/
def flagWord : Nat → List Char
  | 0 => ['-']
  | 1 => ['r']
  | 2 => ['w']
  | _ => ['r', 'w']

/-- The words of a command. -/
def Command.words (radix : Radix) : Command → List (List Char)
  | .alloc vpn rw => ["alloc".toList, radix.spell vpn, flagWord rw]
  | .free vpn => ["free".toList, radix.spell vpn]
  | .access vpn rw => ["access".toList, radix.spell vpn, flagWord rw]
  | .switch pid => ["switch".toList, radix.spell pid]

/-- The numbers of the command are such as an `unsigned int` can hold, and the flags are those of
a word. -/
def Command.Fits : Command → Prop
  | .alloc vpn rw | .access vpn rw => vpn < 2 ^ 32 ∧ rw ≤ 3
  | .free n | .switch n => n < 2 ^ 32

/-- A command is read back from its words. -/
theorem of_words (radix : Radix) {command : Command} (hfits : command.Fits) :
    Instruction.of (command.words radix) = .run command := by
  have hflags : ∀ rw ≤ 3, __makeRwflag (flagWord rw) = rw := by decide
  cases command with
  | alloc vpn rw | access vpn rw =>
      rw [Command.words, Instruction.of, Instruction.ofThree, strtoimax_spell radix hfits.1,
        hflags rw hfits.2]
      rfl
  | free n | switch n =>
      rw [Command.words, Instruction.of, Instruction.ofTwo, strtoimax_spell radix hfits]
      rfl

/-! ## Lines -/

/-- A character of a word that a line is written with. -/
def isPlain (c : Char) : Bool := !isspace c && c ≠ NUL && c ≠ '#' && tolower c = c

/-- A short word of such characters. -/
structure IsWord (word : List Char) : Prop where
  ne_nil : word ≠ []
  short : word.length ≤ 13
  plain : word.all isPlain = true

theorem IsWord.char {word : List Char} (hword : IsWord word) {c : Char} (hc : c ∈ word) :
    isspace c = false ∧ c ≠ NUL ∧ c ≠ '#' ∧ tolower c = c := by
  have hplain := List.all_eq_true.mp hword.plain c hc
  simpa [isPlain, and_assoc] using hplain

theorem isPlain_digitChar : ∀ digit < 16, isPlain digit.digitChar = true := by decide

theorem isWord_spell (radix : Radix) {n : Nat} (hn : n < 2 ^ 32) : IsWord (radix.spell n) := by
  have hbase : 8 ≤ radix.base ∧ radix.base ≤ 16 := by cases radix <;> decide
  have hlength : (Nat.toDigits radix.base n).length ≤ 11 := by
    rw [Nat.length_toDigits_le_iff (by omega) (by decide)]
    calc n < 8 ^ 11 := hn.trans (by decide)
      _ ≤ radix.base ^ 11 := Nat.pow_le_pow_left hbase.1 11
  have hmark : radix.mark.length ≤ 2 ∧ radix.mark.all isPlain = true := by
    cases radix <;> decide
  refine ⟨fun hnil => Nat.toDigits_ne_nil (List.append_eq_nil_iff.mp hnil).2, ?_, ?_⟩
  · rw [Radix.spell, List.length_append]
    omega
  · rw [Radix.spell, List.all_append, hmark.2, Bool.true_and, List.all_eq_true]
    intro c hc
    obtain ⟨digit, hlt, rfl⟩ := mem_toDigits (by omega) hc
    exact isPlain_digitChar digit (by omega)

theorem isWord_of_decide {word : List Char}
    (hword : word ≠ [] ∧ word.length ≤ 13 ∧ word.all isPlain = true) : IsWord word :=
  ⟨hword.1, hword.2.1, hword.2.2⟩

theorem isWord_words (radix : Radix) {command : Command} (hfits : command.Fits) :
    ∀ word ∈ command.words radix, IsWord word := by
  have hflags : ∀ rw ≤ 3, IsWord (flagWord rw) := fun rw hrw =>
    isWord_of_decide ((by decide : ∀ rw ≤ 3, flagWord rw ≠ [] ∧ (flagWord rw).length ≤ 13 ∧
      (flagWord rw).all isPlain = true) rw hrw)
  cases command with
  | alloc vpn rw | access vpn rw =>
      rw [Command.words, List.forall_mem_cons, List.forall_mem_cons, List.forall_mem_singleton]
      exact ⟨isWord_of_decide (by decide), isWord_spell radix hfits.1, hflags rw hfits.2⟩
  | free n | switch n =>
      rw [Command.words, List.forall_mem_cons, List.forall_mem_singleton]
      exact ⟨isWord_of_decide (by decide), isWord_spell radix hfits⟩

/-- The words of a line, each with a space behind it. -/
def spaced (words : List (List Char)) : List Char := words.flatMap fun word => word ++ [' ']

section Line

variable {fields : List (List Char)} (hfields : ∀ word ∈ fields, IsWord word)
include hfields

theorem words_spaced : words isspace (spaced fields) = fields :=
  words_flatMap (by decide) fun word hword =>
    ⟨(hfields word hword).ne_nil, fun c hc => ((hfields word hword).char hc).1⟩

theorem mem_spaced {c : Char} (hc : c ∈ spaced fields) : c ≠ '\n' ∧ c ≠ NUL ∧ tolower c = c := by
  rw [spaced, List.mem_flatMap] at hc
  obtain ⟨word, hword, hc⟩ := hc
  rw [List.mem_append, List.mem_singleton] at hc
  rcases hc with hc | rfl
  · obtain ⟨hspace, hnul, -, hlower⟩ := (hfields word hword).char hc
    refine ⟨?_, hnul, hlower⟩
    rintro rfl
    exact absurd hspace (by decide)
  · decide

theorem length_spaced : (spaced fields).length ≤ 14 * fields.length := by
  induction fields with
  | nil => simp [spaced]
  | cons word fields ih =>
      obtain ⟨hword, hrest⟩ := List.forall_mem_cons.mp hfields
      have hshort := hword.short
      have hlength := ih hrest
      rw [spaced] at hlength ⊢
      rw [List.flatMap_cons, List.length_append, List.length_append, List.length_singleton,
        List.length_cons]
      omega

/-- The words of a line are those that it was written with. -/
theorem ofLine_spaced (hfew : fields.length ≤ MAX_NR_TOKENS) :
    Instruction.ofLine (spaced fields ++ ['\n']) = .of fields := by
  have hnewline : isspace '\n' = true := by decide
  have hlower : lowercase (spaced fields ++ ['\n']) = spaced fields ++ ['\n'] := by
    have hchars : ∀ c ∈ spaced fields ++ ['\n'], c ≠ NUL ∧ tolower c = c := by
      rw [List.forall_mem_append, List.forall_mem_singleton]
      exact ⟨fun c hc => (mem_spaced hfields hc).2, by decide⟩
    have hwhole : (spaced fields ++ ['\n']).takeWhile (fun c => c ≠ NUL) =
        spaced fields ++ ['\n'] :=
      List.takeWhile_eq_self_iff.mpr fun c hc => decide_eq_true (hchars c hc).1
    rw [lowercase, hwhole, List.map_congr_left fun c hc => (hchars c hc).2, List.map_id']
  have hwords : words isspace (spaced fields ++ ['\n']) = fields := by
    rw [words_append_sep hnewline, words_nil, List.append_nil, words_spaced hfields]
  have hcontent : content (spaced fields ++ ['\n']) = fields := by
    rw [content, hwords, List.takeWhile_eq_self_iff]
    intro word hword
    obtain ⟨c, rest, rfl⟩ := List.exists_cons_of_ne_nil (hfields word hword).ne_nil
    simpa using ((hfields _ hword).char List.mem_cons_self).2.2.1
  rw [Instruction.ofLine, hlower, hwords, hcontent, if_pos hfew]

end Line

/-! ## Traces -/

/-- One line for each command. -/
def trace (written : List (Radix × Command)) : List Char :=
  written.flatMap fun entry => spaced (entry.2.words entry.1) ++ ['\n']

theorem length_words (radix : Radix) (command : Command) : (command.words radix).length ≤ 3 := by
  cases command <;> simp [Command.words]

section Trace

variable {written : List (Radix × Command)} (hfits : ∀ entry ∈ written, entry.2.Fits)
include hfits

theorem fgets_trace : fgets MAX_COMMAND_LEN [] (trace written) =
    written.map fun entry => spaced (entry.2.words entry.1) ++ ['\n'] := by
  induction written with
  | nil => rfl
  | cons entry written ih =>
      obtain ⟨hentry, hrest⟩ := List.forall_mem_cons.mp hfits
      have hwords := isWord_words entry.1 hentry
      have hfew := length_words entry.1 entry.2
      have hlength := length_spaced hwords
      have hline := fgets_line MAX_COMMAND_LEN
        (fun hmem => (mem_spaced hwords hmem).1 rfl) (show _ < 4096 - 1 by omega) (trace written)
      rw [List.map_cons, ← ih hrest, ← hline, trace, List.flatMap_cons, List.append_assoc,
        List.singleton_append]
      rfl

theorem instructions_trace : (fgets MAX_COMMAND_LEN [] (trace written)).map Instruction.ofLine =
    (written.map Prod.snd).map Instruction.run := by
  rw [fgets_trace hfits, List.map_map, List.map_map]
  refine List.map_congr_left fun entry hentry => ?_
  have hfew := length_words entry.1 entry.2
  have hline := ofLine_spaced (isWord_words entry.1 (hfits entry hentry)) (hfew.trans (by decide))
  exact hline.trans (of_words entry.1 (hfits entry hentry))

end Trace

/-- The session of a run of commands. -/
def Results.session (results : Results) : Session :=
  ⟨results.replies, results.fault.map .paging, results.vm⟩

theorem runInstructions_run (contents : Nat → Malloc) (vm : Vm Word) (commands : List Command) :
    runInstructions contents vm (commands.map Instruction.run) =
      (simulate contents vm commands).session := by
  induction commands generalizing contents vm with
  | nil => rfl
  | cons command rest ih =>
      rw [List.map_cons, runInstructions, simulate, Instruction.perform]
      rcases execReply (contents 0) vm command with fault | ⟨reply, next⟩
      · rfl
      · simp only [ok_mapError, ok_bind]
        cases command.breaks reply with
        | true => rfl
        | false =>
            have hrest := ih (fun n => contents (n + 1)) next
            simp only [Bool.false_eq_true, if_false, pure, Except.pure, hrest]
            rfl

/-- **Each list of commands can be written**, with its numbers to any base, and the session of the
trace is the run of the commands, whatever `malloc` leaves to them. -/
theorem session_trace {written : List (Radix × Command)} (hfits : ∀ entry ∈ written, entry.2.Fits)
    (contents : Nat → Malloc) : __doSimulationOf contents (trace written) =
      (simulate contents .init (written.map Prod.snd)).session := by
  rw [__doSimulationOf, simulateLines_eq, instructions_trace hfits, runInstructions_run]

theorem session_trace_fork :
    trace [(.hexadecimal, .alloc 31 3), (.decimal, .switch 7), (.octal, .write 31)] =
      "alloc 0x1f rw \nswitch 7 \naccess 037 w \n".toList ∧
    __doSimulationOf (fun _ => .leftover)
        "alloc 0x1f rw \nswitch 7 \naccess 037 w \n".toList =
      (simulate (fun _ => .leftover) .init [.alloc 31 3, .switch 7, .write 31]).session := by
  have htext : trace [(.hexadecimal, .alloc 31 3), (.decimal, .switch 7), (.octal, .write 31)] =
      "alloc 0x1f rw \nswitch 7 \naccess 037 w \n".toList := by decide
  have hfits : ∀ entry ∈ [(Radix.hexadecimal, Command.alloc 31 3), (.decimal, .switch 7),
      (.octal, .write 31)], entry.2.Fits := by
    simp [Command.Fits, Command.write, RW_WRITE]
  exact ⟨htext, htext ▸ session_trace hfits fun _ => .leftover⟩

end OperatingSystem.Paging
