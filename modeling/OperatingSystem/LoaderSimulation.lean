import OperatingSystem.LoaderWriting

/-!
# Scripts for simulations

Each list of descriptions has a script, with a space behind each word and each property on a line
of its own. What is loaded from the script of a simulation is the fork queue that the simulation
begins with.
-/

namespace OperatingSystem.Loader

open OperatingSystem.Parser

set_option linter.style.nameCheck false

/-! ## Lines for words -/

/-- A word that fits a line of a script and is no comment. -/
structure IsField (word : List Char) : Prop where
  ne_nil : word ≠ []
  short : word.length ≤ 10
  plain : ∀ c ∈ word, isspace c = false ∧ c ≠ NUL ∧ c ≠ '#'

/-- The names of the properties are fields. -/
theorem isField_name : ∀ name ∈ ["process".toList, "end".toList, "start".toList, "lifespan".toList,
    "prio".toList, "acquire".toList], IsField name := by
  intro name hname
  have hplain : ["process".toList, "end".toList, "start".toList, "lifespan".toList, "prio".toList,
      "acquire".toList].all (fun name => name ≠ [] ∧ name.length ≤ 10 ∧
        name.all fun c => isspace c = false ∧ c ≠ NUL ∧ c ≠ '#') := by decide
  have hfield := List.all_eq_true.mp hplain name hname
  rw [decide_eq_true_eq] at hfield
  obtain ⟨hne, hshort, hall⟩ := hfield
  exact ⟨hne, hshort, fun c hc => of_decide_eq_true (List.all_eq_true.mp hall c hc)⟩

theorem not_plain_of_isdigit {c : Char} (hc : isdigit c = true) : c ≠ NUL ∧ c ≠ '#' := by
  rw [isdigit, decide_eq_true_eq] at hc
  constructor
  · rintro rfl
    exact absurd hc.1 (by decide)
  · rintro rfl
    exact absurd hc.1 (by decide)

theorem isField_ofNat {n : Nat} (hn : n ≤ INT_MAX) : IsField (Numeral.ofNat n hn).digits where
  ne_nil := Nat.toDigits_ne_nil
  short := by
    rw [Numeral.ofNat, Nat.length_toDigits_le_iff (by decide) (by decide)]
    exact hn.trans_lt (by decide)
  plain c hc := by
    have hdigit := List.all_eq_true.mp (isdigit_toDigits n) c hc
    exact ⟨Shell.isspace_of_isdigit hdigit, not_plain_of_isdigit hdigit⟩

theorem length_flatMap_space {fields : List (List Char)} (hfields : ∀ word ∈ fields, IsField word) :
    (fields.flatMap fun word => word ++ [' ']).length ≤ 11 * fields.length := by
  induction fields with
  | nil => simp
  | cons word fields ih =>
      obtain ⟨hword, hrest⟩ := List.forall_mem_cons.mp hfields
      have hshort := hword.short
      have hlength := ih hrest
      rw [List.flatMap_cons, List.length_append, List.length_append, List.length_singleton,
        List.length_cons]
      omega

/-- A line of at most twenty fields, each with a space behind it. -/
theorem exists_line {fields : List (List Char)} (hfew : fields.length ≤ 20)
    (hfields : ∀ word ∈ fields, IsField word) : ∃ line : Line, content line.chars = fields := by
  have hwords : words isspace (fields.flatMap fun word => word ++ [' ']) = fields :=
    words_flatMap (by decide) fun word hword =>
      ⟨(hfields word hword).ne_nil, fun c hc => ((hfields word hword).plain c hc).1⟩
  have hlength := length_flatMap_space hfields
  refine ⟨⟨fields.flatMap fun word => word ++ [' '], ?_, by omega, by rw [hwords]; omega⟩, ?_⟩
  · intro c hc
    rw [List.mem_flatMap] at hc
    obtain ⟨word, hword, hc⟩ := hc
    rw [List.mem_append, List.mem_singleton] at hc
    rcases hc with hc | rfl
    · obtain ⟨hspace, hnul, -⟩ := (hfields word hword).plain c hc
      refine ⟨hnul, ?_⟩
      rintro rfl
      exact absurd hspace (by decide)
    · decide
  · rw [content, hwords, List.takeWhile_eq_self_iff]
    intro word hword
    obtain ⟨c, rest, rfl⟩ := List.exists_cons_of_ne_nil (hfields word hword).ne_nil
    simpa using ((hfields _ hword).plain c List.mem_cons_self).2.2


/-- A line for each list of fields, and an empty one at the end. -/
theorem exists_script {contents : List (List (List Char))}
    (hcontents : ∀ fields ∈ contents, fields.length ≤ 20 ∧ ∀ word ∈ fields, IsField word) :
    ∃ script : Script, script.contents = contents ++ [[]] := by
  have hlines : ∃ lines : List Line, lines.map (fun line => content line.chars) = contents := by
    induction contents with
    | nil => exact ⟨[], rfl⟩
    | cons fields contents ih =>
        obtain ⟨⟨hfew, hfields⟩, hrest⟩ := List.forall_mem_cons.mp hcontents
        obtain ⟨line, hline⟩ := exists_line hfew hfields
        obtain ⟨lines, hlines⟩ := ih hrest
        exact ⟨line :: lines, by rw [List.map_cons, hline, hlines]⟩
  obtain ⟨lines, hlines⟩ := hlines
  refine ⟨⟨lines, .empty⟩, ?_⟩
  rw [Script.contents, List.map_append, hlines]
  rfl

/-! ## Scripts for descriptions -/

/-- Its numbers are such as an `int` can hold. -/
structure Description.Fits (description : Description) : Prop where
  pid : description.pid ≤ INT_MAX
  start : description.start ≤ INT_MAX
  lifespan : description.lifespan ≤ INT_MAX
  prio : description.prio ≤ INT_MAX
  acquires : ∀ acquire ∈ description.acquires,
    acquire.1 ≤ INT_MAX ∧ acquire.2.1 ≤ INT_MAX ∧ acquire.2.2 ≤ INT_MAX

/-- Each property once, and then the acquisitions. -/
def Description.block (description : Description) (hfits : description.Fits) : Block where
  pid := .ofNat description.pid hfits.pid
  properties :=
    .start (.ofNat description.start hfits.start) ::
      .lifespan (.ofNat description.lifespan hfits.lifespan) ::
      .prio (.ofNat description.prio hfits.prio) ::
      description.acquires.attach.map fun ⟨acquire, hacquire⟩ =>
        have hacquire := hfits.acquires acquire hacquire
        .acquire (.ofNat acquire.1 hacquire.1) (.ofNat acquire.2.1 hacquire.2.1)
          (.ofNat acquire.2.2 hacquire.2.2)

@[simp] theorem Numeral.value_ofNat {n : Nat} (hn : n ≤ INT_MAX) : (Numeral.ofNat n hn).value = n :=
  decimal_toDigits n

theorem Description.description_block (description : Description) (hfits : description.Fits) :
    (description.block hfits).description = description := by
  simp [Block.description, Description.block, List.filterMap_cons, List.filterMap_map,
    Function.comp_def, Written.start?, Written.lifespan?, Written.prio?, Written.acquire?]

theorem Description.isField_block (description : Description) (hfits : description.Fits) :
    ∀ fields ∈ (description.block hfits).contents,
      fields.length ≤ 20 ∧ ∀ word ∈ fields, IsField word := by
  intro fields hfieldsIn
  rw [Block.contents, List.mem_cons, List.mem_append, List.mem_singleton] at hfieldsIn
  have hnumber {n : Nat} (hn : n ≤ INT_MAX) {name : List Char} (hname : IsField name) :
      [name, (Numeral.ofNat n hn).digits].length ≤ 20 ∧
        ∀ word ∈ [name, (Numeral.ofNat n hn).digits], IsField word := by
    refine ⟨by simp, ?_⟩
    rw [List.forall_mem_cons, List.forall_mem_singleton]
    exact ⟨hname, isField_ofNat hn⟩
  rcases hfieldsIn with rfl | hproperty | rfl
  · exact hnumber hfits.pid (isField_name _ (by simp))
  · simp only [Description.block, List.map_cons, List.mem_cons, List.map_map, List.mem_map,
      List.mem_attach, true_and, Subtype.exists] at hproperty
    rcases hproperty with rfl | rfl | rfl | ⟨acquire, hacquire, rfl⟩
    · exact hnumber hfits.start (isField_name _ (by simp))
    · exact hnumber hfits.lifespan (isField_name _ (by simp))
    · exact hnumber hfits.prio (isField_name _ (by simp))
    · obtain ⟨hresource, hage, hduration⟩ := hfits.acquires acquire hacquire
      refine ⟨by simp [Written.words], ?_⟩
      rw [Function.comp_apply, Written.words, List.forall_mem_cons, List.forall_mem_cons,
        List.forall_mem_cons, List.forall_mem_singleton]
      exact ⟨isField_name _ (by simp), isField_ofNat hresource, isField_ofNat hage,
        isField_ofNat hduration⟩
  · refine ⟨by simp, ?_⟩
    rw [List.forall_mem_singleton]
    exact isField_name _ (by simp)

theorem Block.ne_nil_of_mem_contents {block : Block} {fields : List (List Char)}
    (hfields : fields ∈ block.contents) : fields ≠ [] := by
  rw [Block.contents, List.mem_cons, List.mem_append, List.mem_singleton, List.mem_map] at hfields
  rcases hfields with rfl | ⟨written, -, rfl⟩ | rfl
  · exact List.cons_ne_nil _ _
  · cases written <;> exact List.cons_ne_nil _ _
  · exact List.cons_ne_nil _ _

/-- **Each list of descriptions can be written.** -/
theorem exists_writes {descriptions : List Description}
    (hfits : ∀ description ∈ descriptions, description.Fits) :
    ∃ script : Script, ∃ blocks,
      script.Writes blocks ∧ blocks.map Block.description = descriptions := by
  let blocks := descriptions.attach.map fun ⟨description, hmem⟩ =>
    description.block (hfits description hmem)
  have hcontents : ∀ fields ∈ blocks.flatMap Block.contents,
      fields.length ≤ 20 ∧ ∀ word ∈ fields, IsField word := by
    intro fields hfields
    obtain ⟨block, hblock, hfields⟩ := List.mem_flatMap.mp hfields
    obtain ⟨⟨description, hmem⟩, -, rfl⟩ := List.mem_map.mp hblock
    exact description.isField_block (hfits description hmem) fields hfields
  obtain ⟨script, hscript⟩ := exists_script hcontents
  refine ⟨script, blocks, ?_, ?_⟩
  · rw [Script.Writes, hscript, List.filter_append]
    have hnonempty : (blocks.flatMap Block.contents).filter (fun words => words ≠ []) =
        blocks.flatMap Block.contents := by
      refine List.filter_eq_self.mpr fun fields hfields => ?_
      obtain ⟨block, -, hfields⟩ := List.mem_flatMap.mp hfields
      exact decide_eq_true (Block.ne_nil_of_mem_contents hfields)
    rw [hnonempty]
    exact List.append_nil _
  · simp [blocks, Description.description_block]

/-! ## The start of a simulation -/

/-- A process of the simulation, without the places of its acquisitions. -/
def Process.ofSched (p : Sched.Process) : Process where
  pid := p.pid
  status := p.status
  age := p.age
  lifespan := p.lifespan
  prio := p.prio
  prioOrig := p.prioOrig
  startsAt := p.startsAt
  resourcesToAcquire := p.resourcesToAcquire.map fun rs => ⟨rs.resourceId, rs.atAge, rs.duration⟩
  resourcesHolding := p.resourcesHolding.map fun rs => ⟨rs.resourceId, rs.atAge, rs.duration⟩

def Description.ofSched (description : Sched.Description) : Description where
  pid := description.pid
  start := description.start
  lifespan := description.lifespan
  prio := description.prio
  acquires := description.acquires.map fun acquire =>
    (acquire.resourceId, acquire.atAge, acquire.duration.toNat)

theorem process_ofSched {description : Sched.Description}
    (hdurations : ∀ acquire ∈ description.acquires, 0 ≤ acquire.duration) :
    (Description.ofSched description).process = .ofSched description.process := by
  have hacquires : (Description.ofSched description).process.resourcesToAcquire =
      (Process.ofSched description.process).resourcesToAcquire := by
    simp only [Description.process, Description.ofSched, Process.ofSched,
      Sched.Description.process, List.map_map]
    refine List.ext_getElem (by simp) fun i hi _ => ?_
    have hlt : i < description.acquires.length := by simpa using hi
    have hduration := hdurations _ (List.getElem_mem hlt)
    simp [hduration]
  calc (Description.ofSched description).process
      = { Process.ofSched description.process with
          resourcesToAcquire := (Description.ofSched description).process.resourcesToAcquire } :=
        rfl
    _ = .ofSched description.process := by rw [hacquires]

/-- What is loaded from the script of a simulation is the fork queue that it begins with. -/
theorem load_simulation {n : Nat} {simulated : Sched.Script n}
    (hdurations : ∀ p, ∀ acquire ∈ (simulated p).acquires, 0 ≤ acquire.duration)
    {script : Script} {blocks : List Block} (hwrites : script.Writes blocks)
    (hblocks : blocks.map Block.description = List.ofFn fun p => .ofSched (simulated p)) :
    __loadScript script.text = .ok (true, ⟨none, simulated.load.forkqueue.map fun p =>
      .ofSched (simulated.load.procs p)⟩) := by
  have hqueue : (blocks.map fun block => block.description.process) =
      simulated.load.forkqueue.map fun p => .ofSched (simulated.load.procs p) := by
    calc (blocks.map fun block => block.description.process)
        = (blocks.map Block.description).map Description.process := by rw [List.map_map]; rfl
      _ = (List.finRange n).map fun p => (Description.ofSched (simulated p)).process := by
          rw [hblocks, List.map_ofFn, List.ofFn_eq_map]
          rfl
      _ = (List.finRange n).map fun p => .ofSched (simulated p).process :=
          List.map_congr_left fun p _ => process_ofSched (hdurations p)
  rw [load_blocks hwrites, hqueue]

/-- **Each simulation has a script**, if its numbers are such as an `int` can hold. -/
theorem exists_load_simulation {n : Nat} {simulated : Sched.Script n}
    (hfits : ∀ p, (Description.ofSched (simulated p)).Fits)
    (hdurations : ∀ p, ∀ acquire ∈ (simulated p).acquires, 0 ≤ acquire.duration) :
    ∃ script : Script, __loadScript script.text = .ok (true, ⟨none,
      simulated.load.forkqueue.map fun p => .ofSched (simulated.load.procs p)⟩) := by
  have hall : ∀ description ∈ List.ofFn fun p => Description.ofSched (simulated p),
      description.Fits := by
    rw [List.forall_mem_ofFn_iff]
    exact hfits
  obtain ⟨script, blocks, hwrites, hblocks⟩ := exists_writes hall
  exact ⟨script, load_simulation hdurations hwrites hblocks⟩

end OperatingSystem.Loader
