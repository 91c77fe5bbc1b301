import OperatingSystem.RingProgramCalls

/-!
# The moves of the program

The list of the steps of the generators, of the counter and of `main`, and what each of them does
to the ring buffer, to the barrier and to the variables.
-/

namespace OperatingSystem.Ring

open RingLoops (MAX_VALUE Fault progress)

namespace Program

variable {G : Nat} {options : Options} {p next : Program G}

/-- `Move options p turn next`: a step leads from `p` to `next`. -/
inductive Move (options : Options) (p : Program G) : Turn G → Program G → Prop
  | arrive (g : Fin G) (random k : Nat) (hpc : p.generator g = .barrier k none) :
      Move options p (.generator g random)
        (p.arrive.goGenerator g (.barrier k (some p.barrier.round)))
  | pass (g : Fin G) (random k round : Nat) (hpc : p.generator g = .barrier k (some round))
      (hopen : round < p.barrier.round) :
      Move options p (.generator g random) (p.goGenerator g (GeneratorPc.afterBarrier k))
  | choose (g : Fin G) (random i : Nat) (hpc : p.generator g = .turn i)
      (hi : i < options.nrGenerate) (value : Fin MAX_VALUE) :
      Move options p (.generator g random) (p.goGenerator g (.assertValue i (value.val : Int)))
  | endLoop (g : Fin G) (random i : Nat) (hpc : p.generator g = .turn i)
      (hi : ¬ i < options.nrGenerate) :
      Move options p (.generator g random) (p.goGenerator g (.barrier 1 none))
  | enqueue (g : Fin G) (random i : Nat) (value : Int) (hpc : p.generator g = .assertValue i value)
      (hrange : InRange value) (ring : Ringbuffer (Thread G))
      (hact : p.ring.act (.call (some g) (.enqueue value)) = some ring) :
      Move options p (.generator g random)
        ({ p with ring := ring }.goGenerator g (.enqueue i value))
  | failAssertion (g : Fin G) (random i : Nat) (value : Int)
      (hpc : p.generator g = .assertValue i value) (hrange : ¬ InRange value) :
      Move options p (.generator g random) (p.stop .assertion)
  | enqueueStep (g : Fin G) (random i : Nat) (value : Int) (hpc : p.generator g = .enqueue i value)
      (ring : Ringbuffer (Thread G)) (hact : p.ring.act (.step (some g)) = some ring) :
      Move options p (.generator g random) ({ p with ring := ring }.goGenerator g
        (if ring.stage (some g) = Stage.idle then .account i value else p.generator g))
  | enqueueOutOfBounds (g : Fin G) (random i : Nat) (value : Int)
      (hpc : p.generator g = .enqueue i value) (hslot : p.ring.leavesSlots (some g) = true) :
      Move options p (.generator g random) (p.stop .outOfBounds)
  | account (g : Fin G) (random i : Nat) (value : Int) (hpc : p.generator g = .account i value)
      (entry : Fin MAX_VALUE) (hentry : entry? value = some entry) :
      Move options p (.generator g random) ((p.addGenerated g entry).goGenerator g (.report i))
  | accountOutOfBounds (g : Fin G) (random i : Nat) (value : Int)
      (hpc : p.generator g = .account i value) (hentry : entry? value = none) :
      Move options p (.generator g random) (p.stop .outOfBounds)
  | report (g : Fin G) (random i : Nat) (hpc : p.generator g = .report i) :
      Move options p (.generator g random) (p.goGenerator g (.turn (i + 1)))
  | divide (g : Fin G) (random i : Nat) (hpc : p.generator g = .report i) {fault : Fault}
      (hprogress : progress options.verbose options.nrGenerate i = .error fault) :
      Move options p (.generator g random) (p.stop .divisionByZero)
  | dequeue (i : Nat) (hpc : p.counter = .turn i) (hi : i < nrRequests (G := G) options)
      (ring : Ringbuffer (Thread G)) (hact : p.ring.act (.call none .dequeue) = some ring) :
      Move options p .counter ({ p with ring := ring }.goCounter (.dequeue i))
  | endCounting (i : Nat) (hpc : p.counter = .turn i) (hi : ¬ i < nrRequests (G := G) options) :
      Move options p .counter (p.goCounter .finished)
  | dequeueStep (i : Nat) (hpc : p.counter = .dequeue i) (ring : Ringbuffer (Thread G))
      (hact : p.ring.act (.step none) = some ring) :
      Move options p .counter ({ p with ring := ring }.goCounter
        (if ring.stage none = Stage.idle then .assertValue i (p.ring.stage none).result
        else p.counter))
  | dequeueOutOfBounds (i : Nat) (hpc : p.counter = .dequeue i)
      (hslot : p.ring.leavesSlots none = true) : Move options p .counter (p.stop .outOfBounds)
  | assertCounted (i : Nat) (value : Int) (hpc : p.counter = .assertValue i value)
      (hrange : InRange value) : Move options p .counter (p.goCounter (.account i value))
  | failCounted (i : Nat) (value : Int) (hpc : p.counter = .assertValue i value)
      (hrange : ¬ InRange value) : Move options p .counter (p.stop .assertion)
  | count (i : Nat) (value : Int) (hpc : p.counter = .account i value) (entry : Fin MAX_VALUE)
      (hentry : entry? value = some entry) :
      Move options p .counter ((p.addCounted entry).goCounter (.report i))
  | countOutOfBounds (i : Nat) (value : Int) (hpc : p.counter = .account i value)
      (hentry : entry? value = none) : Move options p .counter (p.stop .outOfBounds)
  | reportCounted (i : Nat) (hpc : p.counter = .report i) :
      Move options p .counter (p.goCounter (.turn (i + 1)))
  | divideCounted (i : Nat) (hpc : p.counter = .report i) {fault : Fault}
      (hprogress : progress options.verbose (nrRequests (G := G) options) i = .error fault) :
      Move options p .counter (p.stop .divisionByZero)
  | spawnCounter (hpc : p.main = .spawnCounter) :
      Move options p .main ((p.goCounter (.turn 0)).goMain .assertGenerators)
  | assertGenerators (hpc : p.main = .assertGenerators) (hsome : 0 < G ∧ 0 < options.nrGenerate) :
      Move options p .main (p.goMain (.spawnGenerator 0))
  | failGenerators (hpc : p.main = .assertGenerators)
      (hsome : ¬ (0 < G ∧ 0 < options.nrGenerate)) : Move options p .main (p.stop .assertion)
  | spawnGenerator (g : Fin G) (hpc : p.main = .spawnGenerator g) :
      Move options p .main ((p.goGenerator g (.barrier 0 none)).goMain (.spawnGenerator (g + 1)))
  | spawned (i : Nat) (hpc : p.main = .spawnGenerator i) (hi : ¬ i < G) :
      Move options p .main (p.goMain (.barrier 0 none))
  | mainArrive (k : Nat) (hpc : p.main = .barrier k none) :
      Move options p .main (p.arrive.goMain (.barrier k (some p.barrier.round)))
  | mainPass (k round : Nat) (hpc : p.main = .barrier k (some round))
      (hopen : round < p.barrier.round) :
      Move options p .main (p.goMain (MainPc.afterBarrier k))
  | collected (hpc : p.main = .collect []) : Move options p .main (p.goMain (.barrier 2 none))
  | collect (g : Fin G) (value : Fin MAX_VALUE) (left : List (Fin G × Fin MAX_VALUE))
      (hpc : p.main = .collect ((g, value) :: left)) :
      Move options p .main ((p.collectValue g value).goMain (.collect left))
  | joinGenerator (g : Fin G) (hpc : p.main = .joinGenerator g)
      (hfinished : p.generator g = .finished) :
      Move options p .main (p.goMain (.joinGenerator (g + 1)))
  | joined (i : Nat) (hpc : p.main = .joinGenerator i) (hi : ¬ i < G) :
      Move options p .main (p.goMain .joinCounter)
  | joinCounter (hpc : p.main = .joinCounter) (hfinished : p.counter = .finished) :
      Move options p .main ({ p with countedValues := p.valueCounter }.goMain .compare)
  | compare (hpc : p.main = .compare) :
      Move options p .main (p.goMain (.report
        (decide (∃ value, p.generatedValues value ≠ p.countedValues value))))
  | reportTime (mismatch : Bool) (hpc : p.main = .report mismatch) :
      Move options p .main (p.goMain (.finished mismatch))
  | divideTime (mismatch : Bool) (hpc : p.main = .report mismatch) (htime : options.elapsed = 0) :
      Move options p .main (p.stop .divisionByZero)

theorem generatorMain_move {g : Fin G} {random : Nat}
    (hstep : p.generatorMain options g random (p.generator g) = some next) :
    Move options p (.generator g random) next := by
  cases hpc : p.generator g with
  | notCreated | finished => simp [hpc, generatorMain] at hstep
  | barrier k since =>
      cases since with
      | none =>
          simp only [hpc, generatorMain, Option.some.injEq] at hstep
          exact hstep ▸ .arrive g random k hpc
      | some round =>
          simp only [hpc, generatorMain, Option.ite_none_right_eq_some, Option.some.injEq] at hstep
          exact hstep.2 ▸ .pass g random k round hpc hstep.1
  | turn i =>
      simp only [hpc, generatorMain] at hstep
      split_ifs at hstep with hi
      · exact Option.some.inj hstep ▸ .choose g random i hpc hi _
      · exact Option.some.inj hstep ▸ .endLoop g random i hpc hi
  | assertValue i value =>
      simp only [hpc, generatorMain] at hstep
      split_ifs at hstep with hrange
      · obtain ⟨ring, hact, rfl⟩ := Option.map_eq_some_iff.mp hstep
        exact .enqueue g random i value hpc hrange ring hact
      · exact Option.some.inj hstep ▸ .failAssertion g random i value hpc hrange
  | enqueue i value =>
      simp only [hpc, generatorMain] at hstep
      split_ifs at hstep with hslot
      · exact Option.some.inj hstep ▸ .enqueueOutOfBounds g random i value hpc hslot
      · obtain ⟨ring, hact, rfl⟩ := Option.map_eq_some_iff.mp hstep
        have hmove : Move options p _ _ := .enqueueStep g random i value hpc ring hact
        split_ifs with hidle
        · rwa [if_pos hidle] at hmove
        · rwa [if_neg hidle, goGenerator, Function.update_eq_self] at hmove
  | account i value =>
      simp only [hpc, generatorMain] at hstep
      split at hstep
      next hentry => exact Option.some.inj hstep ▸ .accountOutOfBounds g random i value hpc hentry
      next entry hentry => exact Option.some.inj hstep ▸ .account g random i value hpc entry hentry
  | report i =>
      simp only [hpc, generatorMain] at hstep
      split at hstep
      next fault hprogress => exact Option.some.inj hstep ▸ .divide g random i hpc hprogress
      next => exact Option.some.inj hstep ▸ .report g random i hpc

theorem counterMain_move (hstep : p.counterMain options p.counter = some next) :
    Move options p .counter next := by
  cases hpc : p.counter with
  | notCreated | finished => simp [hpc, counterMain] at hstep
  | turn i =>
      simp only [hpc, counterMain] at hstep
      split_ifs at hstep with hi
      · obtain ⟨ring, hact, rfl⟩ := Option.map_eq_some_iff.mp hstep
        exact .dequeue i hpc hi ring hact
      · exact Option.some.inj hstep ▸ .endCounting i hpc hi
  | dequeue i =>
      simp only [hpc, counterMain] at hstep
      split_ifs at hstep with hslot
      · exact Option.some.inj hstep ▸ .dequeueOutOfBounds i hpc hslot
      · obtain ⟨ring, hact, rfl⟩ := Option.map_eq_some_iff.mp hstep
        have hmove : Move options p _ _ := .dequeueStep i hpc ring hact
        split_ifs with hidle
        · rwa [if_pos hidle] at hmove
        · rwa [if_neg hidle, goCounter, hpc] at hmove
  | assertValue i value =>
      simp only [hpc, counterMain] at hstep
      split_ifs at hstep with hrange
      · exact Option.some.inj hstep ▸ .assertCounted i value hpc hrange
      · exact Option.some.inj hstep ▸ .failCounted i value hpc hrange
  | account i value =>
      simp only [hpc, counterMain] at hstep
      split at hstep
      next hentry => exact Option.some.inj hstep ▸ .countOutOfBounds i value hpc hentry
      next entry hentry => exact Option.some.inj hstep ▸ .count i value hpc entry hentry
  | report i =>
      simp only [hpc, counterMain] at hstep
      split at hstep
      next fault hprogress => exact Option.some.inj hstep ▸ .divideCounted i hpc hprogress
      next => exact Option.some.inj hstep ▸ .reportCounted i hpc

theorem mainStep_move (hstep : p.mainStep options p.main = some next) :
    Move options p .main next := by
  cases hpc : p.main with
  | spawnCounter => exact Option.some.inj (hpc ▸ hstep) ▸ .spawnCounter hpc
  | assertGenerators =>
      simp only [hpc, mainStep] at hstep
      split_ifs at hstep with hsome
      · exact Option.some.inj hstep ▸ .assertGenerators hpc hsome
      · exact Option.some.inj hstep ▸ .failGenerators hpc hsome
  | spawnGenerator i =>
      simp only [hpc, mainStep] at hstep
      split_ifs at hstep with hi
      · exact Option.some.inj hstep ▸ .spawnGenerator ⟨i, hi⟩ hpc
      · exact Option.some.inj hstep ▸ .spawned i hpc hi
  | barrier k since =>
      cases since with
      | none => exact Option.some.inj (hpc ▸ hstep) ▸ .mainArrive k hpc
      | some round =>
          simp only [hpc, mainStep, Option.ite_none_right_eq_some, Option.some.injEq] at hstep
          exact hstep.2 ▸ .mainPass k round hpc hstep.1
  | collect left =>
      cases left with
      | nil => exact Option.some.inj (hpc ▸ hstep) ▸ .collected hpc
      | cons entry left => exact Option.some.inj (hpc ▸ hstep) ▸ .collect entry.1 entry.2 left hpc
  | joinGenerator i =>
      simp only [hpc, mainStep] at hstep
      split_ifs at hstep with hi hfinished
      · exact Option.some.inj hstep ▸ .joinGenerator ⟨i, hi⟩ hpc hfinished
      · exact Option.some.inj hstep ▸ .joined i hpc hi
  | joinCounter =>
      simp only [hpc, mainStep, Option.ite_none_right_eq_some, Option.some.injEq] at hstep
      exact hstep.2 ▸ .joinCounter hpc hstep.1
  | compare => exact Option.some.inj (hpc ▸ hstep) ▸ .compare hpc
  | report mismatch =>
      simp only [hpc, mainStep] at hstep
      split_ifs at hstep with htime
      · exact Option.some.inj hstep ▸ .divideTime mismatch hpc htime
      · exact Option.some.inj hstep ▸ .reportTime mismatch hpc
  | finished mismatch => simp [hpc, mainStep] at hstep

/-- Every step is one of the list, and is taken before the program has been stopped. -/
theorem step_move {turn : Turn G} (hstep : p.step options turn = some next) :
    p.stopped = none ∧ Move options p turn next := by
  simp only [step, Option.ite_none_right_eq_some] at hstep
  obtain ⟨hrunning, hstep⟩ := hstep
  refine ⟨hrunning, ?_⟩
  cases turn with
  | main => exact mainStep_move hstep
  | generator g random => exact generatorMain_move hstep
  | counter => exact counterMain_move hstep

end Program

end OperatingSystem.Ring
