import OperatingSystem.LoaderCommands
import OperatingSystem.Loops

/-!
# The blocks of a script

Only an `end` line tests `p`. A property outside of a block is written through a null pointer, and
a `process` line in a block, like the end of the script, forgets the process under construction.
-/

namespace OperatingSystem.Loader

set_option linter.style.nameCheck false

/-! ## What must not happen -/

def Command.marksBlock : Command → Bool
  | .process _ => true
  | .close => true
  | _ => false

/-- A block is open after these commands: the last `process` or `end` line among them is a
`process` line. -/
def blockOpen (before : List Command) : Bool :=
  match before.reverse.find? Command.marksBlock with
  | some (.process _) => true
  | _ => false

/-- A failure of a command is reported: an assertion fails, or the function returns `false`. -/
def Reports (before : List Command) : Command → Prop
  | .malformed => True
  | .unknown => True
  | .close => blockOpen before = false
  | _ => False

/-- No failure is reported. -/
def Quiet (commands : List Command) : Prop :=
  Along (fun before command => ¬ Reports before command) commands

/-- The pids of the `process` lines. -/
def pids (commands : List Command) : List Nat :=
  commands.filterMap fun
    | .process pid => some pid
    | _ => none

/-- The loader reports a failure, or it ends with one process for each `process` line. -/
def Sound (commands : List Command) : Except Fault (Bool × Loading) → Prop
  | .error fault => fault = .assertion
  | .ok (false, _) => True
  | .ok (true, s) => s.forkqueue.map Process.pid = pids commands

/-- No `process` line comes in an open block. -/
def Kept (commands : List Command) : Prop :=
  Along (fun before command => (∃ pid, command = .process pid) → blockOpen before = false) commands

/-- Up to the first failure that is reported, a property comes in an open block. -/
def Addressed (commands : List Command) : Prop :=
  Along (fun before command =>
    Quiet before → (∃ property, command = .property property) → blockOpen before = true) commands

/-- Properties come in open blocks, and if no failure is reported, no block is open at a `process`
line or at the end. -/
structure WellPlaced (commands : List Command) : Prop where
  properties : Addressed commands
  processes : Quiet commands → Kept commands
  closed : Quiet commands → blockOpen commands = false

/-! ## One more command -/

@[simp] theorem blockOpen_snoc (before : List Command) (command : Command) :
    blockOpen (before ++ [command]) =
      match command with
      | .process _ => true
      | .close => false
      | _ => blockOpen before := by
  rw [blockOpen, List.reverse_append, List.reverse_singleton, List.singleton_append,
    List.find?_cons]
  cases command <;> rfl

@[simp] theorem pids_snoc (before : List Command) (command : Command) :
    pids (before ++ [command]) =
      pids before ++
        match command with
        | .process pid => [pid]
        | _ => [] := by
  cases command <;> simp [pids]

@[simp] theorem write_pid (property : Property) (p : Process) :
    (property.write p).pid = p.pid := by
  cases property <;> rfl

theorem kept_snoc (before : List Command) (command : Command) : Kept (before ++ [command]) ↔
    Kept before ∧ ((∃ pid, command = .process pid) → blockOpen before = false) := by
  rw [Kept, along_append, along_cons, List.append_nil]
  simp [Kept, Along.nil]

/-- The loader after some commands: the process under construction and the processes in the queue
are those of the `process` lines, unless one has been forgotten. -/
structure Loaded (before : List Command) (s : Loading) : Prop where
  pointer : s.p.isSome = blockOpen before
  kept : Kept before → (s.forkqueue ++ s.p.toList).map Process.pid = pids before
  forgotten : ¬ Kept before → (s.forkqueue ++ s.p.toList).length < (pids before).length

theorem execute_loaded {before : List Command} {command : Command} {s : Loading}
    (hloaded : Loaded before s) (hquiet : ¬ Reports before command)
    (hplaced : (∃ property, command = .property property) → blockOpen before = true) :
    ∃ s', execute s command = .ok (some s') ∧ Loaded (before ++ [command]) s' := by
  obtain ⟨hpointer, hkept, hforgotten⟩ := hloaded
  have hsnoc := kept_snoc before command
  cases command with
  | blank =>
      exact ⟨s, rfl, by simpa using hpointer, by simpa [hsnoc] using hkept,
        by simpa [hsnoc] using hforgotten⟩
  | process pid =>
      refine ⟨_, rfl, by simp, fun hkept' => ?_, fun hnot => ?_⟩
      · obtain ⟨hkept', hclosed⟩ := hsnoc.mp hkept'
        have hnone : s.p = none := by simpa [hclosed ⟨pid, rfl⟩] using hpointer
        have hpids := hkept hkept'
        rw [hnone] at hpids
        simpa using hpids
      · have hlt : s.forkqueue.length < (pids before).length := by
          by_cases hkept' : Kept before
          · have hopen : blockOpen before = true := by
              by_contra hclosed
              exact hnot (hsnoc.mpr ⟨hkept', fun _ => by simpa using hclosed⟩)
            obtain ⟨p, hp⟩ := Option.isSome_iff_exists.mp (hpointer.trans hopen)
            have hlength := congrArg List.length (hkept hkept')
            simp only [hp, List.length_map, List.length_append, Option.toList_some,
              List.length_singleton] at hlength
            omega
          · have hlength := hforgotten hkept'
            rw [List.length_append] at hlength
            omega
        simpa using hlt
  | close =>
      have hopen : blockOpen before = true := by simpa [Reports] using hquiet
      obtain ⟨p, hp⟩ := Option.isSome_iff_exists.mp (hpointer.trans hopen)
      rw [hp] at hkept hforgotten
      refine ⟨⟨none, s.forkqueue ++ [p]⟩, by simp only [execute, hp], by simp, fun hkept' => ?_,
        fun hnot => ?_⟩
      · simpa using hkept (hsnoc.mp hkept').1
      · have hnot' : ¬ Kept before := fun hkept' => hnot (hsnoc.mpr ⟨hkept', by simp⟩)
        simpa using hforgotten hnot'
  | property property =>
      obtain ⟨p, hp⟩ := Option.isSome_iff_exists.mp (hpointer.trans (hplaced ⟨property, rfl⟩))
      rw [hp] at hkept hforgotten
      have hwrite : execute s (.property property) =
          .ok (some { s with p := some (property.write p) }) := by
        simp only [execute, Loading.write, hp]
        rfl
      refine ⟨_, hwrite, ?_, fun hkept' => ?_, fun hnot => ?_⟩
      · simpa using hplaced ⟨property, rfl⟩
      · simpa using hkept (hsnoc.mp hkept').1
      · have hnot' : ¬ Kept before := fun hkept' => hnot (hsnoc.mpr ⟨hkept', by simp⟩)
        simpa using hforgotten hnot'
  | malformed => exact absurd trivial hquiet
  | unknown => exact absurd trivial hquiet

/-! ## All commands -/

/-- The failure of a command is reported. -/
theorem reports_sound {before : List Command} {command : Command} {s : Loading}
    (hloaded : Loaded before s) (hreports : Reports before command) (rest commands : List Command) :
    Sound commands (executeAll (command :: rest) s) := by
  cases command with
  | close =>
      have hnone : s.p = none := by simpa [show blockOpen before = false from hreports] using
        hloaded.pointer
      simp only [executeAll, execute, hnone]
      rfl
  | malformed => rfl
  | unknown => trivial
  | blank => exact hreports.elim
  | process pid => exact hreports.elim
  | property property => exact hreports.elim

/-- What comes after a failure does not matter. -/
theorem reports_wellPlaced {before : List Command} {command : Command}
    (haddressed : Addressed before) (hreports : Reports before command) (rest : List Command) :
    WellPlaced (before ++ command :: rest) := by
  have hloud : ∀ after, ¬ Quiet (before ++ command :: after) := by
    intro after hquiet'
    rw [Quiet, along_append, along_cons, List.append_nil] at hquiet'
    exact hquiet'.2.1 hreports
  refine ⟨?_, fun hquiet' => absurd hquiet' (hloud rest), fun hquiet' =>
    absurd hquiet' (hloud rest)⟩
  rw [Addressed, along_append, along_cons, List.append_nil]
  refine ⟨haddressed, ?_, ?_⟩
  · rintro - ⟨property, rfl⟩
    exact hreports.elim
  · intro after later _ _ hquiet'
    exact absurd hquiet' (hloud after)

/-- A property outside of a block is written through a null pointer. -/
theorem unplaced_crashes {before : List Command} {s : Loading} (hloaded : Loaded before s)
    (hclosed : blockOpen before = false) (property : Property) (rest : List Command) :
    executeAll (.property property :: rest) s = .error .nullPointer := by
  have hnone : s.p = none := by simpa [hclosed] using hloaded.pointer
  simp only [executeAll, execute, Loading.write, hnone]
  rfl

/-- At the end each process is in the queue, if none has been forgotten and no block is open. -/
theorem queue_complete_iff {commands : List Command} {s : Loading} (hloaded : Loaded commands s) :
    s.forkqueue.map Process.pid = pids commands ↔ Kept commands ∧ blockOpen commands = false := by
  constructor
  · intro hqueue
    have hlength := congrArg List.length hqueue
    rw [List.length_map] at hlength
    have hkept : Kept commands := by
      by_contra hnot
      have hlt := hloaded.forgotten hnot
      rw [List.length_append] at hlt
      omega
    have hall := congrArg List.length (hloaded.kept hkept)
    rw [List.length_map, List.length_append] at hall
    have hnone : s.p.toList = [] := List.eq_nil_of_length_eq_zero (by omega)
    rw [Option.toList_eq_nil_iff] at hnone
    refine ⟨hkept, ?_⟩
    rw [← hloaded.pointer, hnone]
    rfl
  · rintro ⟨hkept, hclosed⟩
    have hnone : s.p = none := by simpa [hclosed] using hloaded.pointer
    have hall := hloaded.kept hkept
    rwa [hnone, Option.toList_none, List.append_nil] at hall

/-- The commands after those that have been executed without a failure. -/
theorem sound_from {before : List Command} {s : Loading} (hloaded : Loaded before s)
    (hquiet : Quiet before) (haddressed : Addressed before) (rest : List Command) :
    Sound (before ++ rest) (executeAll rest s) ↔ WellPlaced (before ++ rest) := by
  induction rest generalizing before s with
  | nil =>
      rw [List.append_nil]
      refine (queue_complete_iff hloaded).trans ⟨fun ⟨hkept, hclosed⟩ => ?_, fun hwell => ?_⟩
      · exact ⟨haddressed, fun _ => hkept, fun _ => hclosed⟩
      · exact ⟨hwell.processes hquiet, hwell.closed hquiet⟩
  | cons command rest ih =>
      by_cases hreports : Reports before command
      · exact iff_of_true (reports_sound hloaded hreports rest _)
          (reports_wellPlaced haddressed hreports rest)
      by_cases hplaced : (∃ property, command = .property property) → blockOpen before = true
      · obtain ⟨s', hexecute, hloaded'⟩ := execute_loaded hloaded hreports hplaced
        have hquiet' : Quiet (before ++ [command]) := Along.snoc hquiet hreports
        have haddressed' : Addressed (before ++ [command]) :=
          Along.snoc haddressed fun _ => hplaced
        have hnext := ih hloaded' hquiet' haddressed'
        rw [List.append_assoc, List.singleton_append] at hnext
        rw [executeAll, hexecute]
        exact hnext
      · rw [Classical.not_imp, Bool.not_eq_true] at hplaced
        obtain ⟨⟨property, rfl⟩, hclosed⟩ := hplaced
        rw [unplaced_crashes hloaded hclosed property rest]
        refine iff_of_false (fun hfault => by cases hfault) fun hwell => ?_
        have hopen := hwell.properties before (.property property) rest rfl hquiet ⟨property, rfl⟩
        rw [hclosed] at hopen
        cases hopen

/-- A script is loaded soundly if and only if its properties and its blocks are well placed. -/
theorem load_sound_iff (script : Script) :
    Sound script.commands (__loadScript script.text) ↔ WellPlaced script.commands := by
  have hloaded : Loaded [] ⟨none, []⟩ :=
    ⟨rfl, fun _ => rfl, fun hnot => absurd (Along.nil _) hnot⟩
  have hsound := sound_from hloaded (Along.nil _) (Along.nil _) script.commands
  rwa [List.nil_append, ← __loadScript_eq] at hsound

/-- A property without a block, a block in a block, and a block without an end. -/
def unaddressed : Script := ⟨[.of "lifespan 4".toList (by decide)], .empty⟩
def overwritten : Script :=
  ⟨[.of "process 1".toList (by decide), .of "process 2".toList (by decide),
    .of "end".toList (by decide)], .empty⟩
def unclosed : Script := ⟨[.of "process 1".toList (by decide)], .empty⟩

/-- The first is written through a null pointer, and of each of the others one process is lost. -/
theorem unsound_scripts :
    ¬ Sound unaddressed.commands (__loadScript unaddressed.text) ∧
      ¬ Sound overwritten.commands (__loadScript overwritten.text) ∧
      ¬ Sound unclosed.commands (__loadScript unclosed.text) := by
  have hcrash : __loadScript unaddressed.text = .error .nullPointer := by decide +kernel
  have hone : __loadScript overwritten.text =
      .ok (true, ⟨none, [{ Process.zeroed with pid := 2 }]⟩) := by decide +kernel
  have htwo : pids overwritten.commands = [1, 2] := by decide +kernel
  have hnone : __loadScript unclosed.text =
      .ok (true, ⟨some { Process.zeroed with pid := 1 }, []⟩) := by decide +kernel
  have hlost : pids unclosed.commands = [1] := by decide +kernel
  rw [hcrash, hone, hnone]
  refine ⟨fun hfault => ?_, fun hsound => ?_, fun hsound => ?_⟩
  · cases hfault
  · change [2] = pids overwritten.commands at hsound
    rw [htwo] at hsound
    cases hsound
  · change [] = pids unclosed.commands at hsound
    rw [hlost] at hsound
    cases hsound

end OperatingSystem.Loader
