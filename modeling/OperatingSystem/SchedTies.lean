import OperatingSystem.SchedConserving

/-!
# Ties between SJF and SRTF

When all processes start together, `sjf_schedule` runs them by lifespan and then by place.
`srtf_schedule` puts the running process at the front of the ready queue, but starts its
search with the process that was at the front before; so a ready process of the same
lifespan overtakes the running one if it is the first of the queue.
-/

namespace OperatingSystem.Sched

variable {n : Nat}

/-- The scheduler runs the process at the tick. -/
def Scheduler.Runs (sched : Scheduler n) (script : Script n) (tick : Nat) (p : Fin n) : Prop :=
  ∃ c log, (sched.logged script).Reachable (c, log) ∧ (tick, .ran p) ∈ log

/-- The processes start together, and live for less than the bound of `sjf_schedule`. -/
structure Script.Together (script : Script n) (start : Nat) : Prop where
  plain : script.Plain
  start : ∀ p, (script p).start = start
  lifespan : ∀ p, 1 ≤ (script p).lifespan ∧ (script p).lifespan ≤ 99

/-- A process that lives as long as an earlier one, for more than a tick, has an earlier one
that lives longer. -/
def Script.Shielded (script : Script n) : Prop :=
  ∀ p, 2 ≤ (script p).lifespan → (∃ q < p, (script q).lifespan = (script p).lifespan) →
    ∃ q < p, (script p).lifespan < (script q).lifespan

instance (script : Script n) : Decidable script.Plain := inferInstanceAs (Decidable (∀ _, _ = _))

instance (script : Script n) : Decidable script.Shielded :=
  inferInstanceAs (Decidable (∀ _, _ → _ → ∃ _, _ ∧ _))

/-- The order in which SJF runs the processes. -/
def Script.Before (script : Script n) (p q : Fin n) : Prop :=
  (script p).lifespan < (script q).lifespan ∨ (script p).lifespan = (script q).lifespan ∧ p < q

/-- The first ready process lives as long as the unfinished current one. -/
def Sim.Tied (s : Sim n) : Prop :=
  ∃ p first, s.unfinished = some p ∧ s.readyqueue.head? = some first ∧
    s.lifespan first = s.lifespan p

/-! ## The two callbacks at one state -/

section Callbacks

variable {s : Sim n}

theorem sjfSchedule_unfinished {p : Fin n} (hunfinished : s.unfinished = some p) :
    sjfSchedule s = .ok (some p, s) := by
  simp only [sjfSchedule, hunfinished]

variable (hages : ∀ q ∈ s.readyqueue, (s.procs q).age ≤ (s.procs q).lifespan)
  (hshortest : ∀ p, s.unfinished = some p → ∀ q ∈ s.readyqueue, s.lifespan p ≤ s.lifespan q)

include hages

/-- Without a current process both callbacks take the first shortest ready process. -/
theorem srtf_eq_sjf_of_none (hunfinished : s.unfinished = none) (hfound : s.Findable) :
    srtfSchedule s = sjfSchedule s := by
  obtain ⟨next, hsjf, hnone, hpicks⟩ := sjfSchedule_findable hunfinished hfound
  rcases srtfSchedule_spec hages with ⟨hempty, hsrtf⟩ | ⟨p, hleast, hsrtf⟩
  · have hready : s.readyqueue = [] := (List.append_eq_nil_iff.mp hempty).1
    obtain rfl : next = none := hnone.mpr hready
    rw [hsrtf, hsjf]
    rfl
  · cases hready : s.readyqueue with
    | nil =>
        have hmem := hleast.mem
        simp [Sim.visited, hunfinished, hready] at hmem
    | cons first rest =>
        have hleast' : FirstLeast s.lifespan s.readyqueue p := by
          rw [hready]
          refine FirstLeast.tail ?_
          simpa [Sim.visited, hunfinished, hready] using hleast
        obtain ⟨q, rfl⟩ : ∃ q, next = some q :=
          Option.ne_none_iff_exists'.mp (by simp [hnone, hready])
        obtain rfl := hleast'.unique (hpicks q rfl)
        rw [hsrtf, hsjf, hunfinished]
        rfl

include hshortest

/-- The current process goes on under SRTF too, unless it is tied. -/
theorem srtf_eq_sjf_of_some {p : Fin n} (hunfinished : s.unfinished = some p)
    (hfree : ¬ s.Tied) : srtfSchedule s = sjfSchedule s := by
  rw [sjfSchedule_unfinished hunfinished]
  have hleast : FirstLeast s.lifespan s.visited p := by
    cases hready : s.readyqueue with
    | nil => exact ⟨[], [], by simp [Sim.visited, hunfinished, hready], by simp, by simp⟩
    | cons first rest =>
        refine ⟨[first], first :: rest, by simp [Sim.visited, hunfinished, hready], ?_, ?_⟩
        · intro q hq
          obtain rfl := List.mem_singleton.mp hq
          have hle := hshortest p hunfinished q (by simp [hready])
          exact hle.lt_of_ne fun heq => hfree ⟨p, q, hunfinished, by simp [hready], heq.symm⟩
        · intro q hq
          exact hshortest p hunfinished q (hready ▸ hq)
  rcases srtfSchedule_spec hages with ⟨hempty, -⟩ | ⟨q, hleast', hsrtf⟩
  · simp [Sim.contenders, hunfinished] at hempty
  · obtain rfl := hleast.unique hleast'
    rw [hsrtf, hunfinished]
    simp

/-- A tied current process is overtaken. -/
theorem srtf_tied (htied : s.Tied) : ∃ p first queue, s.unfinished = some p ∧
    first ∈ s.readyqueue ∧ srtfSchedule s = .ok (some first, { s with readyqueue := queue }) := by
  obtain ⟨p, first, hunfinished, hhead, htie⟩ := htied
  obtain ⟨rest, hready⟩ : ∃ rest, s.readyqueue = first :: rest :=
    List.head?_eq_some_iff.mp hhead
  have hvisited : s.visited = first :: p :: first :: rest := by
    simp [Sim.visited, hunfinished, hready]
  have hleast : FirstLeast s.lifespan s.visited first := by
    refine ⟨[], p :: first :: rest, hvisited, by simp, fun q hq => ?_⟩
    rcases List.mem_cons.mp hq with rfl | hq
    · exact htie.le
    · rw [htie]
      exact hshortest p hunfinished q (hready ▸ hq)
  rcases srtfSchedule_spec hages with ⟨hempty, -⟩ | ⟨q, hleast', hsrtf⟩
  · simp [Sim.contenders, hunfinished] at hempty
  · obtain rfl := hleast.unique hleast'
    exact ⟨p, first, _, hunfinished, by simp [hready], hsrtf⟩

end Callbacks

/-- What `sjf_schedule` chooses: the current process, or the first shortest ready one. -/
theorem sjf_outcome {s after : Sim n} {next : Option (Fin n)} (hfound : s.Findable)
    (hschedule : sjfSchedule s = .ok (next, after)) :
    (∃ p, s.unfinished = some p ∧ next = some p ∧ after.readyqueue = s.readyqueue) ∨
    (next = none ∧ s.readyqueue = [] ∧ after.readyqueue = []) ∨
    ∃ p, s.unfinished = none ∧ next = some p ∧ FirstLeast s.lifespan s.readyqueue p ∧
      after.readyqueue = s.readyqueue.erase p := by
  rcases Option.eq_none_or_eq_some s.unfinished with hnone | ⟨p, hunfinished⟩
  · obtain ⟨chosen, hsjf, hidle, hpicks⟩ := sjfSchedule_findable hnone hfound
    have hsame := Except.ok.inj (hschedule.symm.trans hsjf)
    obtain rfl : next = chosen := congrArg Prod.fst hsame
    have hqueue : after.readyqueue = next.elim s.readyqueue s.readyqueue.erase :=
      congrArg (fun choice => choice.2.readyqueue) hsame
    cases next with
    | none =>
        have hempty := hidle.mp rfl
        exact .inr (.inl ⟨rfl, hempty, hqueue.trans hempty⟩)
    | some p => exact .inr (.inr ⟨p, hnone, rfl, hpicks p rfl, hqueue⟩)
  · have hsame := Except.ok.inj (hschedule.symm.trans (sjfSchedule_unfinished hunfinished))
    exact .inl ⟨p, hunfinished, congrArg Prod.fst hsame,
      congrArg (fun choice => choice.2.readyqueue) hsame⟩

/-! ## The head states of SJF -/

/-- What is ready at a head comes after the process that has run. -/
structure Sim.Shortest (script : Script n) (start : Nat) (s : Sim n) : Prop where
  early : s.ticks ≤ start → s.current = none
  idle : s.current = none → s.readyqueue = []
  forkqueue : s.forkqueue = if s.ticks ≤ start then List.finRange n else []
  startsAt : ∀ q, (s.procs q).startsAt = start
  sorted : s.readyqueue.Pairwise (· < ·)
  current : ∀ p, s.current = some p →
    1 ≤ (s.procs p).age ∧ ∀ q, q ∈ s.readyqueue ↔ script.Before p q

theorem Script.Before.trans {script : Script n} {p q r : Fin n} (hpq : script.Before p q)
    (hqr : script.Before q r) : script.Before p r := by
  simp only [Script.Before] at *
  omega

theorem Script.Before.ne {script : Script n} {p q : Fin n} (hpq : script.Before p q) : q ≠ p := by
  rintro rfl
  simp [Script.Before] at hpq

/-- In a sorted list the first least element comes before the others. -/
theorem firstLeast_before {script : Script n} {queue : List (Fin n)}
    (hsorted : queue.Pairwise (· < ·)) {p : Fin n}
    (hleast : FirstLeast (fun q => (script q).lifespan) queue p) {q : Fin n} (hq : q ∈ queue)
    (hne : p ≠ q) : script.Before p q := by
  obtain ⟨first, last, rfl, hfirst, hlast⟩ := hleast
  rcases List.mem_append.mp hq with hq | hq
  · exact .inl (hfirst q hq)
  · rcases List.mem_cons.mp hq with rfl | hq
    · exact absurd rfl hne
    · have hlater := (List.pairwise_cons.mp (List.pairwise_append.mp hsorted).2.1).1 q hq
      exact (hlast q hq).lt_or_eq.imp_right fun heq => ⟨heq, hlater⟩

theorem Sim.Head.forked_unfinished {script : Script n} {s : Sim n} (hhead : s.Head script)
    {p : Fin n} :
    (__forkOnSchedule s).unfinished = some p ↔
      s.current = some p ∧ (s.procs p).age < (script p).lifespan := by
  rw [Sim.unfinished, Option.filter_eq_some_iff, forkOnSchedule_procs hhead.queued,
    ← hhead.lifespan, decide_eq_true_iff]
  rfl

theorem Sim.Head.forked_lifespan {script : Script n} {s : Sim n} (hhead : s.Head script)
    (p : Fin n) :
    (__forkOnSchedule s).lifespan p = (script p).lifespan := by
  rw [Sim.lifespan, forkOnSchedule_procs hhead.queued]
  exact hhead.lifespan p

section Shortest

variable {script : Script n} {start : Nat} {s now : Sim n} (hshortest : s.Shortest script start)

include hshortest

/-- The processes are forked together. -/
theorem Sim.Shortest.ready :
    (s.ticks = start ∧ s.current = none ∧ (__forkOnSchedule s).readyqueue = List.finRange n) ∨
      s.ticks ≠ start ∧ (__forkOnSchedule s).readyqueue = s.readyqueue := by
  have hready : (__forkOnSchedule s).readyqueue = s.readyqueue ++ s.due := rfl
  by_cases hticks : s.ticks = start
  · left
    have hcurrent := hshortest.early hticks.le
    refine ⟨hticks, hcurrent, ?_⟩
    rw [hready, hshortest.idle hcurrent, Sim.due, hshortest.forkqueue]
    simp [hshortest.startsAt, hticks]
  · refine .inr ⟨hticks, ?_⟩
    rw [hready, Sim.due, hshortest.forkqueue]
    by_cases hearly : s.ticks ≤ start
    · have hlate : ¬ start ≤ s.ticks := by omega
      simp [hshortest.startsAt, hlate]
    · simp [hearly]

theorem Sim.Shortest.ready_sorted : (__forkOnSchedule s).readyqueue.Pairwise (· < ·) := by
  rcases hshortest.ready with ⟨-, -, hready⟩ | ⟨-, hready⟩
  · rw [hready]
    exact List.pairwise_lt_finRange n
  · rw [hready]
    exact hshortest.sorted

theorem Sim.Shortest.ready_of_current {p : Fin n} (hcurrent : s.current = some p) :
    (__forkOnSchedule s).readyqueue = s.readyqueue := by
  rcases hshortest.ready with ⟨-, hnone, -⟩ | ⟨-, hready⟩
  · rw [hnone] at hcurrent
    cases hcurrent
  · exact hready

theorem Sim.Shortest.forks : (__forkOnSchedule s).forkqueue =
    if s.ticks + 1 ≤ start then List.finRange n else [] := by
  show s.forkqueue.filter _ = _
  rw [hshortest.forkqueue]
  by_cases hearly : s.ticks + 1 ≤ start
  · have hlt : s.ticks < start := by omega
    simp [hshortest.startsAt, hearly, hlt, hlt.le]
  · by_cases hle : s.ticks ≤ start
    · have heq : start ≤ s.ticks := by omega
      simp [hshortest.startsAt, hearly, hle, heq]
    · simp [hearly, hle]

/-- What a picked process leaves ready is what comes after it. -/
theorem Sim.Shortest.left_ready (hhead : s.Head script) {p : Fin n}
    (hleast : FirstLeast (fun q => (script q).lifespan) (__forkOnSchedule s).readyqueue p)
    (q : Fin n) : q ∈ (__forkOnSchedule s).readyqueue.erase p ↔ script.Before p q := by
  have hmem := hleast.mem
  have hnodup : (__forkOnSchedule s).readyqueue.Nodup :=
    (forkOnSchedule_queued hhead.queued).readyNodup
  rw [hnodup.mem_erase_iff]
  constructor
  · rintro ⟨hne, hq⟩
    exact firstLeast_before hshortest.ready_sorted hleast hq hne.symm
  · intro hbefore
    refine ⟨hbefore.ne, ?_⟩
    rcases hshortest.ready with ⟨-, -, hall⟩ | ⟨-, hkept⟩
    · rw [hall]
      exact List.mem_finRange q
    · rw [hkept] at hmem ⊢
      rcases Option.eq_none_or_eq_some s.current with hnone | ⟨c, hcurrent⟩
      · rw [hshortest.idle hnone] at hmem
        cases hmem
      · have hlater := (hshortest.current c hcurrent).2
        exact (hlater q).mpr (((hlater p).mp hmem).trans hbefore)

theorem Sim.Shortest.advance (hhead : s.Head script) {after : Sim n} {next : Option (Fin n)}
    (hschedule : sjfSchedule (__forkOnSchedule s) = .ok (next, after))
    (hfound : (__forkOnSchedule s).Findable) (hadvanced : s.Advanced now next)
    (hready : now.readyqueue = after.readyqueue) : now.Shortest script start := by
  have hlifespan : (__forkOnSchedule s).lifespan = fun q => (script q).lifespan :=
    funext hhead.forked_lifespan
  have hstart : ∀ q, (now.procs q).startsAt = start := fun q =>
    (hadvanced.startsAt q).trans (hshortest.startsAt q)
  have hforks : now.forkqueue = if now.ticks ≤ start then List.finRange n else [] := by
    rw [hadvanced.forkqueue, hshortest.forks, hadvanced.ticks]
  have hsorted := hshortest.ready_sorted
  obtain ⟨p, hunfinished, rfl, hqueue⟩ | ⟨rfl, -, hqueue⟩ | ⟨p, -, rfl, hleast, hqueue⟩ :=
    sjf_outcome hfound hschedule
  · -- the current process goes on
    have hcurrent := (hhead.forked_unfinished.mp hunfinished).1
    rw [hqueue, hshortest.ready_of_current hcurrent] at hready
    constructor
    case early =>
      intro hearly
      rw [hadvanced.ticks] at hearly
      have hnone := hshortest.early (by omega)
      rw [hcurrent] at hnone
      cases hnone
    case idle =>
      intro hnone
      rw [hadvanced.current] at hnone
      cases hnone
    case forkqueue => exact hforks
    case startsAt => exact hstart
    case sorted => exact hready ▸ hshortest.sorted
    case current =>
      intro q hq
      rw [hadvanced.current] at hq
      obtain rfl := Option.some.inj hq
      rw [hready, hadvanced.age, if_pos rfl]
      exact ⟨by omega, (hshortest.current p hcurrent).2⟩
  · rw [hqueue] at hready
    constructor
    case early => exact fun _ => hadvanced.current
    case idle => exact fun _ => hready
    case forkqueue => exact hforks
    case startsAt => exact hstart
    case sorted => simp [hready]
    case current =>
      intro q hq
      rw [hadvanced.current] at hq
      cases hq
  · rw [hlifespan] at hleast
    rw [hqueue] at hready
    have hmem := hleast.mem
    constructor
    case early =>
      intro hearly
      rw [hadvanced.ticks] at hearly
      rcases hshortest.ready with ⟨hticks, -, -⟩ | ⟨-, hkept⟩
      · omega
      · rw [hkept, hshortest.idle (hshortest.early (by omega))] at hmem
        cases hmem
    case idle =>
      intro hnone
      rw [hadvanced.current] at hnone
      cases hnone
    case forkqueue => exact hforks
    case startsAt => exact hstart
    case sorted => exact hready ▸ hsorted.sublist List.erase_sublist
    case current =>
      intro q hq
      rw [hadvanced.current] at hq
      obtain rfl := Option.some.inj hq
      rw [hready, hadvanced.age, if_pos rfl]
      exact ⟨by omega, hshortest.left_ready hhead hleast⟩

/-- The current process is one of the shortest. -/
theorem Sim.Shortest.shortest (hhead : s.Head script) {p : Fin n}
    (hunfinished : (__forkOnSchedule s).unfinished = some p) {q : Fin n}
    (hq : q ∈ (__forkOnSchedule s).readyqueue) :
    (__forkOnSchedule s).lifespan p ≤ (__forkOnSchedule s).lifespan q := by
  obtain ⟨hcurrent, -⟩ := hhead.forked_unfinished.mp hunfinished
  rw [hshortest.ready_of_current hcurrent] at hq
  rw [hhead.forked_lifespan, hhead.forked_lifespan]
  rcases ((hshortest.current p hcurrent).2 q).mp hq with hlt | ⟨heq, -⟩
  · exact hlt.le
  · exact heq.le

/-- A tied head belongs to a script that is not shielded. -/
theorem Sim.Shortest.not_shielded (hhead : s.Head script)
    (htied : (__forkOnSchedule s).Tied) : ¬ script.Shielded := by
  obtain ⟨p, first, hunfinished, hfront, htie⟩ := htied
  obtain ⟨hcurrent, hage⟩ := hhead.forked_unfinished.mp hunfinished
  rw [hhead.forked_lifespan, hhead.forked_lifespan] at htie
  rw [hshortest.ready_of_current hcurrent] at hfront
  obtain ⟨rest, hready⟩ := List.head?_eq_some_iff.mp hfront
  obtain ⟨haged, hlater⟩ := hshortest.current p hcurrent
  have hbefore : p < first := by
    have hafter := (hlater first).mp (by simp [hready])
    rcases hafter with hlt | ⟨-, hlt⟩
    · omega
    · exact hlt
  intro hshielded
  obtain ⟨longer, hlt, hlonger⟩ := hshielded first (by omega) ⟨p, hbefore, htie.symm⟩
  -- the longer process would be ready, and in front of the first one
  have hmem : longer ∈ s.readyqueue := (hlater longer).mpr (.inl (by omega))
  have hsorted := hshortest.sorted
  rw [hready] at hmem hsorted
  rcases List.mem_cons.mp hmem with rfl | hmem
  · exact lt_irrefl _ hlt
  · exact lt_asymm hlt ((List.pairwise_cons.mp hsorted).1 longer hmem)

/-- After the first tick of a process that a later one of its lifespan is not shielded from. -/
theorem Sim.Shortest.tied (hhead : s.Head script) {p q : Fin n} (hlife : 2 ≤ (script q).lifespan)
    (hpq : p < q) (hsame : (script p).lifespan = (script q).lifespan)
    (hlongest : ∀ r < q, (script r).lifespan ≤ (script q).lifespan) (hcurrent : s.current = some p)
    (hage : (s.procs p).age = 1) : (__forkOnSchedule s).Tied := by
  obtain ⟨-, hlater⟩ := hshortest.current p hcurrent
  have hmem : q ∈ s.readyqueue := (hlater q).mpr (.inr ⟨hsame, hpq⟩)
  obtain ⟨first, rest, hready⟩ := List.exists_cons_of_ne_nil (List.ne_nil_of_mem hmem)
  refine ⟨p, first, hhead.forked_unfinished.mpr ⟨hcurrent, by omega⟩, ?_, ?_⟩
  · rw [hshortest.ready_of_current hcurrent, hready]
    rfl
  · rw [hhead.forked_lifespan, hhead.forked_lifespan]
    have hfirst : (script first).lifespan ≤ (script q).lifespan := by
      have hsorted := hshortest.sorted
      rw [hready] at hmem hsorted
      rcases List.mem_cons.mp hmem with rfl | hmem
      · exact le_refl _
      · exact hlongest first ((List.pairwise_cons.mp hsorted).1 q hmem)
    rcases (hlater first).mp (by simp [hready]) with hlt | ⟨heq, -⟩
    · omega
    · exact heq.symm

end Shortest

/-! ## The first tick of a process -/

section Runs

variable {policy : Policy n} {sched : Scheduler n} (hlaw : Lawful sched policy)
  {script : Script n} (hplain : script.Plain) (hlives : ∀ p, 1 ≤ (script p).lifespan)

include hlaw hplain

/-- A process that has aged was the current one after its first tick. -/
theorem exists_first_tick {c : Config n} (hreach : (sched.machine script).Reachable c) {p : Fin n}
    (hage : 1 ≤ (c.sim.procs p).age) : ∃ s : Sim n,
      (sched.machine script).Reachable ⟨.iterate, s⟩ ∧ s.current = some p ∧
      (s.procs p).age = 1 := by
  revert hage
  apply hreach.invariant fun c => 1 ≤ (c.sim.procs p).age → ∃ s : Sim n,
    (sched.machine script).Reachable ⟨.iterate, s⟩ ∧ s.current = some p ∧ (s.procs p).age = 1
  · intro hage
    simp [Scheduler.machine, Machine.ofFun, Script.start, Script.load, Description.process] at hage
  rintro c - next hstate hinv rfl hage
  by_cases hold : 1 ≤ (c.sim.procs p).age
  · exact hinv hold
  have hwf := reachable_wellFormed hlaw hstate
  rw [(step_effect hlaw hwf).age hwf] at hage
  have hgrowing : c.pc.growing = some p := by
    by_contra hother
    rw [if_neg hother] at hage
    omega
  obtain ⟨pc, s⟩ := c
  cases pc with
  | acquire q skipped todo =>
      cases todo with
      | nil =>
          obtain rfl : q = p := Option.some.inj hgrowing
          have hholding : (s.procs q).resourcesHolding = [] :=
            (reachable_plain hplain hlaw hstate).holding q
          have hgrown : (sched.machine script).Reachable
              ⟨.release q [] (s.procs q).resourcesHolding, s.grow q⟩ := reachable_next hstate
          rw [hholding] at hgrown
          refine ⟨(s.grow q).tick, reachable_next hgrown, hwf.shaped.1.1, ?_⟩
          show ((s.grow q).procs q).age = 1
          rw [s.grow_self]
          show (s.procs q).age + 1 = 1
          exact congrArg (· + 1) (Nat.lt_one_iff.mp (not_le.mp hold))
      | cons => cases hgrowing
  | iterate | release | finished | failed => cases hgrowing

include hlives

/-- What a round prints of the process that the callback chooses. -/
theorem runs_chosen {s after : Sim n} {log : List (Line n)}
    (hreach : (sched.logged script).Reachable (⟨.iterate, s⟩, log)) {p : Fin n}
    (hschedule : sched.schedule (__forkOnSchedule s) = .ok (some p, after)) :
    sched.Runs script s.ticks p := by
  have hstate := reachable_of_logged hreach
  have hwf := reachable_wellFormed hlaw hstate
  have hruns := reachable_not_failed hlaw (hplain.regular hlives) (reachable_next hstate)
  have hchosen : (sched.next ⟨.iterate, s⟩).sim.current = some p := by
    have hsame := (iteration_schedule hlaw hwf.queued rfl hruns).symm.trans hschedule
    exact congrArg Prod.fst (Except.ok.inj hsame)
  have heffect := step_effect hlaw hwf
  have hnext := hreach.logged_step
  generalize sched.next ⟨.iterate, s⟩ = next at heffect hnext hchosen hruns
  cases heffect with
  | finish hturn =>
      rw [show Sim.current _ = _ from hturn.current] at hchosen
      cases hchosen
  | @idle s after hturn =>
      have hnone : after.tick.current = none := hturn.current
      rw [hnone] at hchosen
      cases hchosen
  | @dispatch s after q hturn =>
      rw [show Sim.current _ = _ from hturn.current] at hchosen
      obtain rfl := Option.some.inj hchosen
      have hpending : (after.procs q).resourcesToAcquire = [] :=
        (reachable_plain hplain hlaw (reachable_of_logged hnext)).pending q
      have hticks : after.ticks = s.ticks := hturn.ticks
      rw [hpending] at hnext
      refine ⟨_, _, hnext.logged_step, List.mem_append_right _ ?_⟩
      simp [Scheduler.lines, Scheduler.events, hticks]
  | refuse => exact absurd rfl (hruns _)

end Runs

/-! ## Where the two runs part -/

theorem Sim.Head.blockedDone {script : Script n} {s : Sim n} (hhead : s.Head script) :
    s.BlockedDone := by
  intro p hcurrent hwait
  rw [hhead.current_running hcurrent] at hwait
  cases hwait

theorem sjfSchedule_ok {s : Sim n} (hfound : s.Findable) {fault : Fault} :
    sjfSchedule s ≠ .error fault := by
  rcases Option.eq_none_or_eq_some s.unfinished with hnone | ⟨p, hunfinished⟩
  · obtain ⟨next, hsjf, -⟩ := sjfSchedule_findable hnone hfound
    simp [hsjf]
  · simp [sjfSchedule_unfinished hunfinished]

section Together

variable {script : Script n} {start : Nat} (htogether : script.Together start)

include htogether

theorem Script.Together.findable {s : Sim n} (hhead : s.Head script) :
    (__forkOnSchedule s).Findable := by
  cases hready : (__forkOnSchedule s).readyqueue with
  | nil => exact .inl hready
  | cons first rest =>
      refine .inr ⟨first, by simp [hready], ?_⟩
      rw [hhead.forked_lifespan]
      have hbound := (htogether.lifespan first).2
      omega

theorem Script.Together.head {sched : Scheduler n} (hblind : Blind sched) {s : Sim n}
    (hreach : (sched.completed.machine script).Reachable ⟨.iterate, s⟩) : s.Head script :=
  have hlives := fun p => (htogether.lifespan p).1
  reachable_head hblind.completed_lawful (htogether.plain.regular hlives)
    (fun _ => plain_smooth hblind.completed_lawful htogether.plain hlives) hreach

theorem Script.Together.sjf_completed {s : Sim n} (hhead : s.Head script) :
    sjfScheduler.completed.schedule (__forkOnSchedule s) = sjfSchedule (__forkOnSchedule s) :=
  sjfScheduler_blind.schedule_completed hhead.queued hhead.blockedDone
    (sjfSchedule_ok (htogether.findable hhead))

omit htogether in
theorem srtf_completed {s : Sim n} (hhead : s.Head script) :
    srtfScheduler.completed.schedule (__forkOnSchedule s) = srtfSchedule (__forkOnSchedule s) :=
  srtfScheduler_blind.schedule_completed hhead.queued hhead.blockedDone
    (srtfSchedule_ok fun q hq => ((forkOnSchedule_queued hhead.queued).ready q hq).2)

theorem Script.Together.reachable_shortest {s : Sim n} {log : List (Line n)}
    (hreach : (sjfScheduler.completed.logged script).Reachable (⟨.iterate, s⟩, log)) :
    s.Shortest script start := by
  have hblind : Blind (sjfScheduler : Scheduler n) := sjfScheduler_blind
  have hlives := fun p => (htogether.lifespan p).1
  have hstart : script.load.Shortest script start := by
    refine ⟨fun _ => rfl, fun _ => rfl, ?_, htogether.start, List.Pairwise.nil, ?_⟩
    · exact (if_pos (Nat.zero_le start)).symm
    · intro p hcurrent
      cases hcurrent
  obtain ⟨head, before, -, hshortest, rfl, -⟩ := round_invariant hblind.completed_lawful
    (fun _ => plain_smooth hblind.completed_lawful htogether.plain hlives)
    (fun s _ => s.Shortest script start) hstart (by
      intro s before after hhead hinv hround _
      have hhead := htogether.head hblind (reachable_of_logged hhead)
      have hschedule := hround.schedule
      rw [htogether.sjf_completed hhead] at hschedule
      exact hinv.advance hhead hschedule (htogether.findable hhead)
        (hround.turn.advanced_idle hhead) rfl) (by
      intro s before after p now hhead hinv hround hsame
      have hhead := htogether.head hblind (reachable_of_logged hhead)
      have hschedule := hround.schedule
      rw [htogether.sjf_completed hhead] at hschedule
      exact hinv.advance hhead hschedule (htogether.findable hhead)
        (hround.turn.advanced_run hhead hsame) hsame.readyqueue) hreach
  exact hshortest

/-- The head states in which SRTF does not do what SJF does. -/
def Config.Tied (c : Config n) : Prop := c.pc = .iterate ∧ (__forkOnSchedule c.sim).Tied

theorem Script.Together.same_step {c : Config n} {log : List (Line n)}
    (hreach : (sjfScheduler.completed.logged script).Reachable (c, log)) (hfree : ¬ c.Tied) :
    srtfScheduler.completed.next c = sjfScheduler.completed.next c ∧
      srtfScheduler.completed.lines c = sjfScheduler.completed.lines c := by
  have hsame : c.pc = .iterate → srtfScheduler.completed.schedule (__forkOnSchedule c.sim) =
      sjfScheduler.completed.schedule (__forkOnSchedule c.sim) := by
    intro hpc
    obtain ⟨pc, s⟩ := c
    obtain rfl : pc = .iterate := hpc
    have hhead := htogether.head sjfScheduler_blind (reachable_of_logged hreach)
    have hshortest := htogether.reachable_shortest hreach
    have hages := fun q hq => ((forkOnSchedule_queued hhead.queued).ready q hq).2
    rw [srtf_completed hhead, htogether.sjf_completed hhead]
    rcases Option.eq_none_or_eq_some (__forkOnSchedule s).unfinished with hnone | ⟨p, hunfinished⟩
    · exact srtf_eq_sjf_of_none hages hnone (htogether.findable hhead)
    · exact srtf_eq_sjf_of_some hages (fun p hp q hq => hshortest.shortest hhead hp hq)
        hunfinished fun htied => hfree ⟨rfl, htied⟩
  refine ⟨next_congr ?_ ?_ hsame, lines_congr ?_ ?_ hsame⟩ <;> rfl

theorem Script.Together.runs_completed (tick : Nat) (p : Fin n) :
    (sjfScheduler.Runs script tick p ↔ sjfScheduler.completed.Runs script tick p) ∧
      (srtfScheduler.Runs script tick p ↔ srtfScheduler.completed.Runs script tick p) := by
  constructor
  · refine exists_congr fun c => exists_congr fun log => and_congr_left fun _ => ?_
    refine sjfScheduler_blind.plain_logged htogether.plain fun state hstate hpc => ?_
    obtain ⟨pc, s⟩ := state
    obtain rfl : pc = .iterate := hpc
    exact sjfSchedule_ok (htogether.findable (htogether.head sjfScheduler_blind hstate))
  · refine exists_congr fun c => exists_congr fun log => and_congr_left fun _ => ?_
    refine srtfScheduler_blind.plain_logged htogether.plain fun state hstate hpc => ?_
    obtain ⟨pc, s⟩ := state
    obtain rfl : pc = .iterate := hpc
    have hhead := htogether.head srtfScheduler_blind hstate
    exact srtfSchedule_ok fun q hq => ((forkOnSchedule_queued hhead.queued).ready q hq).2

/-- On a shielded script SRTF does what SJF does. -/
theorem Script.Together.same_runs (hshielded : script.Shielded) (tick : Nat) (p : Fin n) :
    srtfScheduler.completed.Runs script tick p ↔ sjfScheduler.completed.Runs script tick p := by
  refine exists_congr fun c => exists_congr fun log => and_congr_left fun _ => ?_
  apply Machine.logged_congr
  intro c hstate
  obtain ⟨log, hreach⟩ : ∃ log, (sjfScheduler.completed.logged script).Reachable (c, log) :=
    hstate.exists_log
  refine htogether.same_step hreach fun htied => ?_
  obtain ⟨pc, s⟩ := c
  obtain ⟨rfl, htied⟩ := htied
  have hhead := htogether.head sjfScheduler_blind hstate
  exact (htogether.reachable_shortest hreach).not_shielded hhead htied hshielded

/-- A tied head state that SJF reaches. -/
theorem Script.Together.exists_tied (hopen : ¬ script.Shielded) : ∃ c log,
    (sjfScheduler.completed.logged script).Reachable (c, log) ∧ c.Tied := by
  have hblind : Blind (sjfScheduler : Scheduler n) := sjfScheduler_blind
  have hlives := fun p => (htogether.lifespan p).1
  simp only [Script.Shielded, not_forall, not_exists, not_and, not_lt] at hopen
  obtain ⟨q, hlife, ⟨p, hpq, hsame⟩, hlongest⟩ := hopen
  obtain ⟨final, log, hfinished, -, -, hcomplete⟩ :=
    lawful_conserves hblind.completed_lawful htogether.plain hlives
  have hran : 0 < log.countP fun line => line.2 = .ran p := by
    rw [hcomplete.ran]
    exact hlives p
  obtain ⟨⟨tick, event⟩, hmem, hevent⟩ := List.countP_pos_iff.mp hran
  obtain rfl : event = .ran p := by simpa using hevent
  have haged := ran_age hblind.completed_lawful hfinished hmem
  obtain ⟨s, hstate, hcurrent, hage⟩ := exists_first_tick hblind.completed_lawful htogether.plain
    (reachable_of_logged hfinished) haged
  obtain ⟨log, hreach⟩ : ∃ log,
      (sjfScheduler.completed.logged script).Reachable (⟨.iterate, s⟩, log) := hstate.exists_log
  exact ⟨_, log, hreach, rfl, (htogether.reachable_shortest hreach).tied
    (htogether.head hblind hstate) hlife hpq hsame hlongest hcurrent hage⟩

/-- The two runs part at a tied head. -/
theorem Script.Together.overtaken (hopen : ¬ script.Shielded) : ∃ tick p,
    srtfScheduler.completed.Runs script tick p ∧ ¬ sjfScheduler.completed.Runs script tick p := by
  have hblind : Blind (sjfScheduler : Scheduler n) := sjfScheduler_blind
  have hblind' : Blind (srtfScheduler : Scheduler n) := srtfScheduler_blind
  have hlives := fun p => (htogether.lifespan p).1
  obtain ⟨c, log, hreach, htied⟩ := htogether.exists_tied hopen
  obtain ⟨⟨c, log⟩, htied, hreach, hreach'⟩ : ∃ state : Config n × List (Line n), state.1.Tied ∧
      (sjfScheduler.completed.logged script).Reachable state ∧
      (srtfScheduler.completed.logged script).Reachable state := by
    have hparted : (srtfScheduler.completed.logged script).Reachable (c, log) ∨ _ :=
      Machine.reachable_apart (fun state => state.1.Tied) (fun ⟨c, log⟩ hstate hfree => by
        obtain ⟨hnext, hlines⟩ := htogether.same_step hstate hfree
        exact Prod.ext hnext (congrArg (log ++ ·) hlines)) hreach
    rcases hparted with hcommon | hparted
    · exact ⟨_, htied, hreach, hcommon⟩
    · exact hparted
  obtain ⟨pc, s⟩ := c
  obtain ⟨rfl, htied⟩ := htied
  have hhead := htogether.head hblind (reachable_of_logged hreach)
  have hages := fun q hq => ((forkOnSchedule_queued hhead.queued).ready q hq).2
  have hshortest := htogether.reachable_shortest hreach
  obtain ⟨p, first, queue, hunfinished, hfirst, hsrtf⟩ :=
    srtf_tied hages (fun p hp q hq => hshortest.shortest hhead hp hq) htied
  have hsjf := sjfSchedule_unfinished hunfinished
  rw [← srtf_completed hhead] at hsrtf
  rw [← htogether.sjf_completed hhead] at hsjf
  refine ⟨s.ticks, first, runs_chosen hblind'.completed_lawful htogether.plain hlives hreach' hsrtf,
    ?_⟩
  rintro ⟨c, log', hother, hline⟩
  obtain ⟨c', log'', hown, hline'⟩ :=
    runs_chosen hblind.completed_lawful htogether.plain hlives hreach hsjf
  obtain rfl := ran_unique hblind.completed_lawful hother hown hline hline'
  -- the current process is on no queue
  obtain ⟨hcurrent, -⟩ := hhead.forked_unfinished.mp hunfinished
  have hlinked := (forkOnSchedule_linked s first).mp (.inr (.inl hfirst))
  exact hhead.queued.not_linked (hhead.current_running hcurrent) hlinked

end Together

/-- **SRTF is SJF**, when all processes start together, on the shielded scripts. -/
theorem srtf_runs_sjf {script : Script n} {start : Nat} (htogether : script.Together start) :
    (∀ tick p, srtfScheduler.Runs script tick p ↔ sjfScheduler.Runs script tick p) ↔
      script.Shielded := by
  constructor
  · intro hsame
    by_contra hopen
    obtain ⟨tick, p, hsrtf, hsjf⟩ := htogether.overtaken hopen
    obtain ⟨hsjf_iff, hsrtf_iff⟩ := htogether.runs_completed tick p
    exact hsjf (hsjf_iff.mp ((hsame tick p).mp (hsrtf_iff.mpr hsrtf)))
  · intro hshielded tick p
    obtain ⟨hsjf_iff, hsrtf_iff⟩ := htogether.runs_completed tick p
    rw [hsrtf_iff, hsjf_iff]
    exact htogether.same_runs hshielded tick p

/-- Two short processes after a longer one. -/
def guarded : Script 3 := ![⟨1, 0, 5, 0, []⟩, ⟨2, 0, 2, 0, []⟩, ⟨3, 0, 2, 0, []⟩]

/-- The two processes of `guarded` are run in turn. -/
theorem srtf_runs_sjf_guarded : guarded.Shielded ∧
    ∀ tick p, srtfScheduler.Runs guarded tick p ↔ sjfScheduler.Runs guarded tick p := by
  have htogether : guarded.Together 0 := ⟨by decide, by decide, by decide⟩
  have hshielded : guarded.Shielded := by decide
  exact ⟨hshielded, (srtf_runs_sjf htogether).mpr hshielded⟩

/-- Two processes of one lifespan. -/
def twins : Script 2 := ![⟨1, 0, 2, 0, []⟩, ⟨2, 0, 2, 0, []⟩]

/-- The second process of `twins` overtakes the first one under SRTF. -/
theorem twins_overtaken : twins.Together 0 ∧ srtfScheduler.Runs twins 1 1 ∧
    ¬ sjfScheduler.Runs twins 1 1 := by
  have htogether : twins.Together 0 := ⟨by decide, by decide, by decide⟩
  refine ⟨htogether, ⟨_, _, Machine.reachable_iterate _ _ 5, by decide +kernel⟩, ?_⟩
  intro hsecond
  have hfirst : sjfScheduler.Runs twins 1 0 :=
    ⟨_, _, Machine.reachable_iterate _ _ 5, by decide +kernel⟩
  obtain ⟨c, log, hreach, hline⟩ := (htogether.runs_completed 1 1).1.mp hsecond
  obtain ⟨c', log', hreach', hline'⟩ := (htogether.runs_completed 1 0).1.mp hfirst
  exact absurd (ran_unique sjfScheduler_blind.completed_lawful hreach hreach' hline hline')
    (by decide)

end OperatingSystem.Sched
