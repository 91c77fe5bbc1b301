import OperatingSystem.LoaderCommands

/-!
# Written scripts

A process is written as a block: its `process` line, its properties in some order, and `end`.
Blank lines, comments and indentation do not count. A property that is written more than once has
the value of its last line, and one that is not written is zero.
-/

namespace OperatingSystem.Loader

open OperatingSystem.Parser
open Shell (IsDecimal)

set_option linter.style.nameCheck false

/-! ## Descriptions and blocks -/

theorem decimal_toDigits (n : Nat) : decimal (Nat.toDigits 10 n) = n :=
  Nat.ofDigitChars_ten_toDigits

theorem isdigit_toDigits (n : Nat) : (Nat.toDigits 10 n).all isdigit = true := by
  refine List.all_eq_true.mpr fun c hc => ?_
  have hdigit := Nat.isDigit_of_mem_toDigits (by decide) (by decide) hc
  rw [Char.isDigit, Bool.and_eq_true, decide_eq_true_eq, decide_eq_true_eq] at hdigit
  exact decide_eq_true hdigit

/-- A decimal that an `int` can hold. -/
structure Numeral where
  digits : List Char
  isDecimal : IsDecimal digits
  fits : decimal digits ≤ INT_MAX

def Numeral.value (numeral : Numeral) : Nat := decimal numeral.digits

/-- The usual decimal of a number. -/
def Numeral.ofNat (n : Nat) (hn : n ≤ INT_MAX) : Numeral where
  digits := Nat.toDigits 10 n
  isDecimal := ⟨Nat.toDigits_ne_nil, isdigit_toDigits n⟩
  fits := by rwa [decimal_toDigits]

/-- What a block says about a process; an acquisition is a resource, an age and a duration. -/
structure Description where
  pid : Nat
  start : Nat
  lifespan : Nat
  prio : Nat
  acquires : List (Nat × Nat × Nat)
deriving DecidableEq, Repr

/-- The process that is loaded for it. -/
def Description.process (description : Description) : Process where
  pid := description.pid
  status := .ready
  age := 0
  lifespan := description.lifespan
  prio := description.prio
  prioOrig := description.prio
  startsAt := description.start
  resourcesToAcquire := description.acquires.map fun (resourceId, atAge, duration) =>
    ⟨resourceId, atAge, duration⟩
  resourcesHolding := []

/-- A property line. -/
inductive Written where
  | start (n : Numeral)
  | lifespan (n : Numeral)
  | prio (n : Numeral)
  | acquire (resourceId atAge duration : Numeral)

def Written.words : Written → List (List Char)
  | .start n => ["start".toList, n.digits]
  | .lifespan n => ["lifespan".toList, n.digits]
  | .prio n => ["prio".toList, n.digits]
  | .acquire resourceId atAge duration =>
    ["acquire".toList, resourceId.digits, atAge.digits, duration.digits]

def Written.start? : Written → Option Nat
  | .start n => some n.value
  | _ => none

def Written.lifespan? : Written → Option Nat
  | .lifespan n => some n.value
  | _ => none

def Written.prio? : Written → Option Nat
  | .prio n => some n.value
  | _ => none

def Written.acquire? : Written → Option (Nat × Nat × Nat)
  | .acquire resourceId atAge duration => some (resourceId.value, atAge.value, duration.value)
  | _ => none

structure Block where
  pid : Numeral
  properties : List Written

/-- The lines of a block, without blank lines and comments. -/
def Block.contents (block : Block) : List (List (List Char)) :=
  ["process".toList, block.pid.digits] :: (block.properties.map Written.words ++ [["end".toList]])

def Block.description (block : Block) : Description where
  pid := block.pid.value
  start := (block.properties.filterMap Written.start?).getLast?.getD 0
  lifespan := (block.properties.filterMap Written.lifespan?).getLast?.getD 0
  prio := (block.properties.filterMap Written.prio?).getLast?.getD 0
  acquires := block.properties.filterMap Written.acquire?

/-- The lines of the script that are neither blank nor a comment are those of the blocks. -/
def Script.Writes (script : Script) (blocks : List Block) : Prop :=
  (script.contents.filter fun words => words ≠ []) = blocks.flatMap Block.contents

/-! ## Reading a property -/

@[simp] theorem Numeral.atoi_digits (numeral : Numeral) : atoi numeral.digits = numeral.value := by
  have hread := numeral.isDecimal.atoi_eq
  have hfits := numeral.fits
  have hmax : INT_MAX = 2147483647 := rfl
  rw [Numeral.value]
  omega

@[simp] theorem toUnsigned_value (numeral : Numeral) :
    toUnsigned numeral.value = numeral.value := by
  have hfits := numeral.fits
  have hmax : INT_MAX = 2147483647 := rfl
  rw [toUnsigned, Numeral.value]
  omega

def Written.property : Written → Property
  | .start n => .start n.value
  | .lifespan n => .lifespan n.value
  | .prio n => .prio n.value
  | .acquire resourceId atAge duration =>
    .acquire ⟨resourceId.value, atAge.value, duration.value⟩

theorem command_of_written (written : Written) :
    Command.of written.words = .property written.property := by
  cases written <;>
    simp [Written.words, Command.of, Command.withOne, Command.withThree, Written.property]

/-- The process under construction after all its properties. -/
theorem foldl_write (properties : List Written) (p : Process) :
    properties.foldl (fun p written => written.property.write p) p =
      { p with
        startsAt := (properties.filterMap Written.start?).getLast?.getD p.startsAt
        lifespan := (properties.filterMap Written.lifespan?).getLast?.getD p.lifespan
        prio := (properties.filterMap Written.prio?).getLast?.getD p.prio
        prioOrig := (properties.filterMap Written.prio?).getLast?.getD p.prioOrig
        resourcesToAcquire := p.resourcesToAcquire ++
          (properties.filterMap Written.acquire?).map fun (resourceId, atAge, duration) =>
            ⟨resourceId, atAge, duration⟩ } := by
  induction properties generalizing p with
  | nil => simp
  | cons written properties ih =>
      rw [List.foldl_cons, ih]
      cases written <;>
        simp [Written.property, Property.write, Process.setStart, Process.setLifespan,
          Process.setPrio, Process.addAcquire, Written.start?, Written.lifespan?, Written.prio?,
          Written.acquire?, List.filterMap_cons, List.getLast?_cons]

theorem written_process (block : Block) :
    block.properties.foldl (fun p written => written.property.write p)
      { Process.zeroed with pid := block.pid.value } = block.description.process := by
  rw [foldl_write]
  simp [Process.zeroed, Block.description, Description.process]

/-! ## Loading -/

theorem executeAll_properties (properties : List Written) (rest : List Command) (p : Process)
    (queue : List Process) :
    executeAll (properties.map (fun written => .of written.words) ++ rest) ⟨some p, queue⟩ =
      executeAll rest ⟨some (properties.foldl (fun p written => written.property.write p) p),
        queue⟩ := by
  induction properties generalizing p with
  | nil => rfl
  | cons written properties ih =>
      rw [List.map_cons, List.cons_append, executeAll, command_of_written, List.foldl_cons, ← ih]
      rfl

/-- A block moves its process to the queue. -/
theorem executeAll_block (block : Block) (rest : List Command) (queue : List Process) :
    executeAll (block.contents.map .of ++ rest) ⟨none, queue⟩ =
      executeAll rest ⟨none, queue ++ [block.description.process]⟩ := by
  have hprocess : Command.of ["process".toList, block.pid.digits] =
      .process block.pid.value := by
    simp [Command.of, Command.withOne]
  have hend : Command.of ["end".toList] = .close := by decide
  have hproperties := executeAll_properties block.properties (.close :: rest)
    { Process.zeroed with pid := block.pid.value } queue
  rw [written_process] at hproperties
  rw [Block.contents, List.map_cons, List.map_append, List.map_singleton, hprocess, hend,
    List.cons_append, List.append_assoc, List.singleton_append, List.map_map, executeAll]
  exact hproperties

theorem executeAll_blocks (blocks : List Block) (queue : List Process) :
    executeAll ((blocks.flatMap Block.contents).map .of) ⟨none, queue⟩ =
      .ok (true, ⟨none, queue ++ blocks.map fun block => block.description.process⟩) := by
  induction blocks generalizing queue with
  | nil => simp [executeAll]
  | cons block blocks ih =>
      rw [List.flatMap_cons, List.map_append, executeAll_block, ih, List.map_cons,
        List.append_assoc, List.singleton_append]

/-- Lines that are blank or a comment do not count. -/
theorem executeAll_contents (contents : List (List (List Char))) (s : Loading) :
    executeAll ((contents.filter fun words => words ≠ []).map .of) s =
      executeAll (contents.map .of) s := by
  rw [← executeAll_filter, ← executeAll_filter (contents.map .of), List.filter_map,
    List.filter_map, List.filter_filter]
  have hblank : ∀ words ∈ contents,
      (((fun command => decide (command ≠ .blank)) ∘ Command.of) words && decide (words ≠ [])) =
        ((fun command => decide (command ≠ .blank)) ∘ Command.of) words := by
    intro words _
    cases words with
    | nil => rfl
    | cons name arguments => rw [decide_eq_true (List.cons_ne_nil _ _), Bool.and_true]
  rw [List.filter_congr hblank]

theorem load_blocks {script : Script} {blocks : List Block} (hwrites : script.Writes blocks) :
    __loadScript script.text =
      .ok (true, ⟨none, blocks.map fun block => block.description.process⟩) := by
  have hcontents := executeAll_contents script.contents ⟨none, []⟩
  rw [show script.contents.filter _ = _ from hwrites, executeAll_blocks, List.nil_append]
    at hcontents
  rw [__loadScript_eq, Script.commands, ← hcontents]

/-- **Loading undoes writing.** The queue holds one process for each description, in order. -/
theorem load_written {script : Script} {blocks : List Block} (hwrites : script.Writes blocks)
    {descriptions : List Description} (hblocks : blocks.map Block.description = descriptions) :
    __loadScript script.text = .ok (true, ⟨none, descriptions.map Description.process⟩) := by
  rw [load_blocks hwrites, ← hblocks, List.map_map]
  rfl

def written : Script where
  lines :=
    [.of "# two processes".toList (by decide), .of "process 6".toList (by decide),
      .of "\tlifespan 4 # ticks".toList (by decide), .of "\tacquire 1 2 3".toList (by decide),
      .of "\tstart 0".toList (by decide), .of "\tacquire 40 0 1".toList (by decide),
      .of "end # of 6".toList (by decide), .of " ".toList (by decide),
      .of "process 7".toList (by decide),
      .of "  prio 10".toList (by decide), .of "  lifespan 10".toList (by decide)]
  last := .of "end # of 7".toList (by decide)

theorem load_written_two : __loadScript written.text =
    .ok (true, ⟨none, [Description.process ⟨6, 0, 4, 0, [(1, 2, 3), (40, 0, 1)]⟩,
      Description.process ⟨7, 0, 10, 10, []⟩]⟩) := by
  let first : Block := ⟨.ofNat 6 (by decide), [.lifespan (.ofNat 4 (by decide)),
    .acquire (.ofNat 1 (by decide)) (.ofNat 2 (by decide)) (.ofNat 3 (by decide)),
    .start (.ofNat 0 (by decide)),
    .acquire (.ofNat 40 (by decide)) (.ofNat 0 (by decide)) (.ofNat 1 (by decide))]⟩
  let second : Block := ⟨.ofNat 7 (by decide), [.prio (.ofNat 10 (by decide)),
    .lifespan (.ofNat 10 (by decide))]⟩
  have hwrites : written.Writes [first, second] := by
    change (_ : List (List (List Char))) = _
    decide +kernel
  exact load_written hwrites rfl

end OperatingSystem.Loader
