import OperatingSystem.RingProgramComparison

/-!
# The program goes on

As long as `main` has not finished, some thread can take a step that is not a compare-and-swap
that fails. `main` waits at a barrier for a thread that has not arrived, or it waits for a thread
that has not finished; this thread can go on, or it is in a call of the buffer, which does not
deadlock.
-/

namespace OperatingSystem.Ring

open RingLoops (MAX_VALUE progress)

variable {G : Nat} {options : Options} {n K : Nat} {memory : Nat → Int}

/-! ## The buffer -/

theorem idle_not_spins {T : Type*} [DecidableEq T] {r : Ringbuffer T}
    {guard : Ringbuffer T → T → Operation → Prop} {t : T}
    (hreach : (machine n memory guard).Reachable r) (hidle : r.stage t = .idle) :
    ¬ r.locks.Spins t := by
  have hpc : r.locks.pc t = .outside :=
    (reachable_aligned hreach).outside (by rw [hidle]; rfl)
  rintro ⟨m, hcas | hcas, -⟩ <;> simp [hpc] at hcas

theorem call_isSome {T : Type*} [DecidableEq T] {r : Ringbuffer T}
    {guard : Ringbuffer T → T → Operation → Prop} {t : T}
    (hreach : (machine n memory guard).Reachable r) (hidle : r.stage t = .idle) (op : Operation) :
    r.act (.call t op) = some (r.goto t op.entry) := by
  obtain ⟨situation, -, hmasked⟩ := Locks.reachable_placed (reachable_locks hreach)
  exact if_pos ⟨hmasked.alive, hidle⟩

/-! ## Places in the buffer -/

theorem GeneratorPc.Valid.inside {pc : GeneratorPc} (hvalid : pc.Valid K) {value : Int}
    (hcalling : pc.calling = some value) : pc.calls K < K ∧ pc.arrivals = 1 := by
  cases pc <;> cases hcalling
  exact ⟨hvalid.1, rfl⟩

theorem CounterPc.Valid.inside {pc : CounterPc} (hvalid : pc.Valid K)
    (hcalling : pc.calling = true) : pc.calls K < K := by
  cases pc <;> cases hcalling
  exact hvalid

namespace Program

variable {p : Program G}

/-! ## Who cannot go on -/

/-- Nobody can take a step, but for compare-and-swaps that fail. -/
def Stuck (options : Options) (p : Program G) : Prop :=
  ∀ turn next, p.step options turn = some next → p.Spins turn

/-- The thread waits for the barrier to be opened. -/
def Waits (p : Program G) (since : Option Nat) : Prop :=
  ∃ round, since = some round ∧ p.barrier.round ≤ round

section Stuck

variable (hrunning : p.stopped = none) (hstuck : Stuck options p)
include hrunning hstuck

theorem Stuck.main : p.mainStep options p.main = none := by
  rw [Option.eq_none_iff_forall_ne_some]
  intro next hstep
  obtain ⟨t, ht, -⟩ := hstuck .main next (by rw [step, if_pos hrunning]; exact hstep)
  cases ht

/-- `main` has finished, or it waits for the barrier or for a thread to finish. -/
theorem Stuck.main_cases : (∃ mismatch, p.main = .finished mismatch) ∨
    (∃ k since, p.main = .barrier k since ∧ p.Waits since) ∨
    (∃ g : Fin G, p.main = .joinGenerator g ∧ p.generator g ≠ .finished) ∨
    (p.main = .joinCounter ∧ p.counter ≠ .finished) := by
  have hnone := hstuck.main hrunning
  cases hpc : p.main with
  | finished mismatch => exact .inl ⟨mismatch, rfl⟩
  | barrier k since =>
      rw [hpc] at hnone
      cases since with
      | none => cases hnone
      | some round =>
          simp only [mainStep, ite_eq_right_iff, reduceCtorEq, imp_false, not_lt] at hnone
          exact .inr (.inl ⟨k, some round, rfl, round, rfl, hnone⟩)
  | joinGenerator i =>
      rw [hpc, mainStep] at hnone
      split_ifs at hnone with hi hfinished
      exact .inr (.inr (.inl ⟨⟨i, hi⟩, rfl, hfinished⟩))
  | joinCounter =>
      rw [hpc, mainStep] at hnone
      split_ifs at hnone with hfinished
      exact .inr (.inr (.inr ⟨rfl, hfinished⟩))
  | spawnCounter | compare =>
      rw [hpc] at hnone
      cases hnone
  | assertGenerators | spawnGenerator i | report mismatch =>
      rw [hpc, mainStep] at hnone
      split_ifs at hnone
  | collect left =>
      rw [hpc] at hnone
      cases left <;> cases hnone

variable (hworking : p.Working options n memory)
include hworking

/-- A generator that is not in the buffer waits for the barrier, has finished or has not been
created. -/
theorem Stuck.generator_cases {g : Fin G} (hcalling : (p.generator g).calling = none) :
    p.generator g = .notCreated ∨ p.generator g = .finished ∨
      ∃ k since, p.generator g = .barrier k since ∧ p.Waits since := by
  have hidle := (hworking.generator g).idle hcalling
  have hnone : p.generatorMain options g 0 (p.generator g) = none := by
    rw [Option.eq_none_iff_forall_ne_some]
    intro next hstep
    obtain ⟨t, ht, hspins⟩ := hstuck (.generator g 0) next
      (by rw [step, if_pos hrunning]; exact hstep)
    cases ht
    exact idle_not_spins hworking.ring hidle hspins
  cases hpc : p.generator g with
  | notCreated => exact .inl rfl
  | finished => exact .inr (.inl rfl)
  | barrier k since =>
      rw [hpc] at hnone
      cases since with
      | none => cases hnone
      | some round =>
          simp only [generatorMain, ite_eq_right_iff, reduceCtorEq, imp_false, not_lt] at hnone
          exact .inr (.inr ⟨k, some round, rfl, round, rfl, hnone⟩)
  | turn i =>
      rw [hpc, generatorMain] at hnone
      split_ifs at hnone
  | assertValue i value =>
      have hvalid := (hworking.generator g).valid
      rw [hpc] at hvalid
      rw [hpc, generatorMain, if_pos hvalid.2, call_isSome hworking.ring hidle] at hnone
      cases hnone
  | enqueue i value =>
      rw [hpc] at hcalling
      cases hcalling
  | account i value =>
      rw [hpc, generatorMain] at hnone
      split at hnone <;> cases hnone
  | report i =>
      rw [hpc, generatorMain] at hnone
      split at hnone <;> cases hnone

/-- The counter is in the buffer, has finished or has not been created. -/
theorem Stuck.counter_cases (hcalling : p.counter.calling = false) :
    p.counter = .notCreated ∨ p.counter = .finished := by
  have hidle := hworking.counter.idle hcalling
  have hvalid := hworking.counter.valid
  have hnone : p.counterMain options p.counter = none := by
    rw [Option.eq_none_iff_forall_ne_some]
    intro next hstep
    obtain ⟨t, ht, hspins⟩ := hstuck .counter next (by rw [step, if_pos hrunning]; exact hstep)
    cases ht
    exact idle_not_spins hworking.ring hidle hspins
  cases hpc : p.counter with
  | notCreated => exact .inl rfl
  | finished => exact .inr rfl
  | turn i =>
      rw [hpc, counterMain] at hnone
      split_ifs at hnone
      rw [call_isSome hworking.ring hidle] at hnone
      cases hnone
  | dequeue i =>
      rw [hpc] at hcalling
      cases hcalling
  | assertValue i value =>
      rw [hpc] at hvalid
      rw [hpc, counterMain, if_pos hvalid.2] at hnone
      cases hnone
  | account i value | report i =>
      rw [hpc, counterMain] at hnone
      split at hnone <;> cases hnone

/-- A generator in the buffer can only fail there. -/
theorem Stuck.generator_inside {g : Fin G} {value : Int}
    (hcalling : (p.generator g).calling = some value) {label : Label (Thread G)}
    {ring : Ringbuffer (Thread G)} (hthread : label.thread = some g)
    (hact : p.ring.act label = some ring) : p.ring.locks.Spins (some g) := by
  obtain ⟨line, hstage⟩ := (hworking.generator g).busy value hcalling
  cases label with
  | call t op =>
      obtain rfl : t = some g := hthread
      have hidle := (act_call hact).1
      rw [hstage] at hidle
      cases hidle
  | step t =>
      obtain rfl : t = some g := hthread
      cases hpc : p.generator g with
      | enqueue i value' =>
          have hstep : ∃ next, p.step options (.generator g 0) = some next := by
            rw [step, if_pos hrunning]
            simp only [hpc, generatorMain, hact]
            split_ifs
            · exact ⟨_, rfl⟩
            · exact ⟨_, rfl⟩
          obtain ⟨next, hnext⟩ := hstep
          obtain ⟨t, ht, hspins⟩ := hstuck _ next hnext
          cases ht
          exact hspins
      | notCreated | barrier | turn | assertValue | account | report | finished =>
          rw [hpc] at hcalling
          cases hcalling

theorem Stuck.counter_inside (hcalling : p.counter.calling = true) {label : Label (Thread G)}
    {ring : Ringbuffer (Thread G)} (hthread : label.thread = none)
    (hact : p.ring.act label = some ring) : p.ring.locks.Spins none := by
  obtain ⟨line, hstage⟩ := hworking.counter.busy hcalling
  cases label with
  | call t op =>
      obtain rfl : t = none := hthread
      have hidle := (act_call hact).1
      rw [hstage] at hidle
      cases hidle
  | step t =>
      obtain rfl : t = none := hthread
      cases hpc : p.counter with
      | dequeue i =>
          have hstep : ∃ next, p.step options .counter = some next := by
            rw [step, if_pos hrunning]
            simp only [hpc, counterMain, hact]
            split_ifs
            · exact ⟨_, rfl⟩
            · exact ⟨_, rfl⟩
          obtain ⟨next, hnext⟩ := hstep
          obtain ⟨t, ht, hspins⟩ := hstuck _ next hnext
          cases ht
          exact hspins
      | notCreated | turn | assertValue | account | report | finished =>
          rw [hpc] at hcalling
          cases hcalling

variable (hphased : p.Phased)
include hphased

/-- Once the first barrier has been opened, the buffer deadlocks if nobody can go on. -/
theorem Stuck.deadlock (hcreated : p.main.created = G) (hspawned : p.main ≠ .spawnCounter)
    (hround : 1 ≤ p.barrier.round) : Deadlock n memory options.nrGenerate p.ring := by
  intro t hunfinished label ring hthread hstep
  cases t with
  | none =>
      cases hcalling : p.counter.calling with
      | true => exact hstuck.counter_inside hrunning hworking hcalling hthread hstep.2
      | false =>
          rcases hstuck.counter_cases hrunning hworking hcalling with hpc | hpc
          · exact absurd (hphased.place.counter.mp hpc) hspawned
          · have hcalls := hworking.counter.calls
            rw [hpc] at hcalls
            exact absurd hcalls hunfinished.ne
  | some g =>
      cases hcalling : (p.generator g).calling with
      | some value => exact hstuck.generator_inside hrunning hworking hcalling hthread hstep.2
      | none =>
          have hcalls := (hworking.generator g).calls
          rcases hstuck.generator_cases hrunning hworking hcalling with
            hpc | hpc | ⟨k, since, hpc, round, rfl, hclosed⟩
          · have hlate := (hphased.place.created g).mp hpc
            have hg := g.isLt
            omega
          · rw [hpc] at hcalls
            exact absurd hcalls hunfinished.ne
          · have hplaced := hphased.place.generator g
            rw [hpc] at hplaced hcalls
            obtain rfl := hplaced.2 round rfl
            rcases round with _ | round
            · omega
            · exact absurd hcalls hunfinished.ne

/-- Somebody has not arrived at the barrier where `main` waits: a generator, which is in the
buffer. -/
theorem Stuck.not_barrier (hn : 1 ≤ n) {k : Nat} {since : Option Nat} (hwaits : p.Waits since) :
    p.main ≠ .barrier k since := by
  intro hpc
  obtain ⟨round, rfl, hclosed⟩ := hwaits
  have hround := hphased.rounds.passed none
  have hplaced := hphased.place.main
  rw [hpc] at hplaced
  obtain rfl := hplaced.2 round rfl
  simp only [passed, tell, hpc, MainPc.passed] at hround
  obtain ⟨q, habsent⟩ := hphased.rounds.accounts.exists_absent
  cases q with
  | none =>
      simp only [arrivals, tell, hpc, MainPc.arrivals, arrivalsAt] at habsent
      omega
  | some g =>
      simp only [arrivals, tell] at habsent
      cases hcalling : (p.generator g).calling with
      | some value =>
          obtain ⟨hunfinished, hone⟩ := (hworking.generator g).valid.inside hcalling
          have hdeadlock := hstuck.deadlock hrunning hworking hphased (by rw [hpc]; rfl)
            (by simp [hpc]) (by omega)
          apply deadlock_finished hn hworking.ring hdeadlock (some g)
          exact (hworking.generator g).calls.trans_lt hunfinished
      | none =>
          rcases hstuck.generator_cases hrunning hworking hcalling with
            hother | hother | ⟨k, since, hother, round', rfl, hclosed'⟩
          · have hlate := (hphased.place.created g).mp hother
            rw [hpc] at hlate
            exact absurd hlate (Nat.not_le.mpr g.isLt)
          · rw [hother] at habsent
            have hthree : 3 = p.barrier.round := habsent
            have htwo := hplaced.1
            omega
          · have hplaced' := hphased.place.generator g
            rw [hother] at hplaced' habsent
            have hlater : k + 1 = p.barrier.round := habsent
            obtain rfl := hplaced'.2 round' rfl
            omega

/-- A generator that `main` joins has passed the last barrier, or it can. -/
theorem Stuck.not_joinGenerator {g : Fin G} (hunfinished : p.generator g ≠ .finished) :
    p.main ≠ .joinGenerator g := by
  intro hpc
  have hround := hphased.rounds.passed none
  simp only [passed, tell, hpc, MainPc.passed] at hround
  have hpassed : 3 ≤ p.main.passed := by rw [hpc]; exact le_rfl
  have hsettled := hphased.generator_settled hpassed options.nrGenerate g
  rcases hstuck.generator_cases hrunning hworking hsettled.2.1 with
    hother | hother | ⟨k, since, hother, round, rfl, hclosed⟩
  · have hlate := (hphased.place.created g).mp hother
    rw [hpc] at hlate
    exact absurd hlate (Nat.not_le.mpr g.isLt)
  · exact hunfinished hother
  · have hplaced := hphased.place.generator g
    rw [hother] at hplaced
    obtain rfl := hplaced.2 round rfl
    have htwo := hplaced.1
    omega

/-- The counter that `main` joins is in the buffer. -/
theorem Stuck.not_joinCounter (hn : 1 ≤ n) (hunfinished : p.counter ≠ .finished) :
    p.main ≠ .joinCounter := by
  intro hpc
  have hround := hphased.rounds.passed none
  simp only [passed, tell, hpc, MainPc.passed] at hround
  cases hcalling : p.counter.calling with
  | true =>
      have hcalls := hworking.counter.valid.inside hcalling
      have hdeadlock := hstuck.deadlock hrunning hworking hphased (by rw [hpc]; rfl)
        (by simp [hpc]) (by omega)
      apply deadlock_finished hn hworking.ring hdeadlock none
      exact hworking.counter.calls.trans_lt hcalls
  | false =>
      rcases hstuck.counter_cases hrunning hworking hcalling with hother | hother
      · have hspawned := hphased.place.counter.mp hother
        rw [hpc] at hspawned
        cases hspawned
      · exact hunfinished hother

end Stuck

/-! ## Progress -/

/-- As long as `main` has not finished, and no report has divided by zero, some thread can take a
step that is not a compare-and-swap that fails. -/
theorem program_advances (hn : 1 ≤ n) (hfits : options.nrGenerate * G < 2 ^ 64)
    (hreach : (program options n memory).Reachable p) (hrunning : p.stopped = none)
    (hmain : ∀ mismatch, p.main ≠ .finished mismatch) :
    ∃ turn next, (program options n memory).step p turn next ∧ ¬ p.Spins turn := by
  by_contra hnone
  have hstuck : Stuck options p := by
    intro turn next hstep
    by_contra hspins
    exact hnone ⟨turn, next, hstep, hspins⟩
  have hworking := reachable_working hfits hreach
  have hphased := reachable_phased hreach
  rcases hstuck.main_cases hrunning with ⟨mismatch, hpc⟩ | ⟨k, since, hpc, hwaits⟩ |
      ⟨g, hpc, hunfinished⟩ | ⟨hpc, hunfinished⟩
  · exact hmain mismatch hpc
  · exact hstuck.not_barrier hrunning hworking hphased hn hwaits hpc
  · exact hstuck.not_joinGenerator hrunning hworking hphased hunfinished hpc
  · exact hstuck.not_joinCounter hrunning hworking hphased hn hunfinished hpc

def blocking : List (Turn 1) :=
  List.replicate 5 .main ++ List.replicate 49 (.generator ⟨0, Nat.one_pos⟩ 0) ++
    List.replicate 2 .main

/-- The generator sleeps in the full buffer, and `main` waits for it at the barrier. -/
def halfway : Program 1 :=
  (blocking.foldlM (step ⟨false, .constant, 2, 1⟩) (start 1 fun _ => 0)).get (by decide +kernel)

theorem halfway_reachable : (program ⟨false, .constant, 2, 1⟩ 1 fun _ => 0).Reachable halfway :=
  Machine.reachable_foldlM (fun _ _ _ hstep => hstep) Machine.reachable_init
    (Option.some_get _).symm

theorem program_advances_halfway : halfway.main = .barrier 1 (some 1) ∧
    halfway.ring.locks.pc (some 0) = .acquire .sema .sigwaitinfo ∧
    ∃ turn next, (program ⟨false, .constant, 2, 1⟩ 1 fun _ => 0).step halfway turn next ∧
      ¬ halfway.Spins turn := by
  have hmain : halfway.main = .barrier 1 (some 1) := by decide +kernel
  refine ⟨hmain, by decide +kernel, ?_⟩
  exact program_advances le_rfl (by decide) halfway_reachable (by decide +kernel) (by simp [hmain])

end Program

end OperatingSystem.Ring
