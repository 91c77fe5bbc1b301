import OperatingSystem.RingProgramMoves
import Mathlib.Tactic.IntervalCases

/-!
# The rounds of the barrier

The place of a thread tells how often it has arrived at the barrier and how often it has passed
it. Nobody passes before everybody has arrived, so the generators and `main` are in the same round
or in two adjacent ones.
-/

namespace OperatingSystem.Ring

/-! ## The places -/

/-- A thread that waits at barrier `k` has arrived there in round `k`. -/
def PlacedAt (k : Nat) (since : Option Nat) : Prop :=
  k ≤ 2 ∧ ∀ round, since = some round → round = k

/-- How often a thread has arrived when it is at barrier `k`. -/
def arrivalsAt (k : Nat) : Option Nat → Nat
  | none => k
  | some _ => k + 1

namespace GeneratorPc

def arrivals : GeneratorPc → Nat
  | .notCreated => 0
  | .barrier k since => arrivalsAt k since
  | .turn _ | .assertValue _ _ | .enqueue _ _ | .account _ _ | .report _ => 1
  | .finished => 3

def passed : GeneratorPc → Nat
  | .notCreated => 0
  | .barrier k _ => k
  | .turn _ | .assertValue _ _ | .enqueue _ _ | .account _ _ | .report _ => 1
  | .finished => 3

def Placed : GeneratorPc → Prop
  | .barrier k since => PlacedAt k since
  | _ => True

theorem afterBarrier_arrivals {k : Nat} (hk : k ≤ 2) : (afterBarrier k).arrivals = k + 1 := by
  interval_cases k <;> rfl

theorem afterBarrier_passed {k : Nat} (hk : k ≤ 2) : (afterBarrier k).passed = k + 1 := by
  interval_cases k <;> rfl

theorem afterBarrier_placed (k : Nat) : (afterBarrier k).Placed := by
  unfold afterBarrier
  split
  · trivial
  · exact ⟨le_rfl, nofun⟩
  · trivial

theorem afterBarrier_ne (k : Nat) : afterBarrier k ≠ .notCreated := by
  unfold afterBarrier
  split <;> nofun

end GeneratorPc

namespace MainPc

variable {G : Nat}

def arrivals : MainPc G → Nat
  | .spawnCounter | .assertGenerators | .spawnGenerator _ => 0
  | .barrier k since => arrivalsAt k since
  | .collect _ => 2
  | .joinGenerator _ | .joinCounter | .compare | .report _ | .finished _ => 3

def passed : MainPc G → Nat
  | .spawnCounter | .assertGenerators | .spawnGenerator _ => 0
  | .barrier k _ => k
  | .collect _ => 2
  | .joinGenerator _ | .joinCounter | .compare | .report _ | .finished _ => 3

/-- The number of generators that have been created. -/
def created : MainPc G → Nat
  | .spawnCounter | .assertGenerators => 0
  | .spawnGenerator i => i
  | _ => G

def Placed : MainPc G → Prop
  | .barrier k since => PlacedAt k since
  | .spawnGenerator i => i ≤ G
  | _ => True

theorem afterBarrier_arrivals {k : Nat} (hk : k ≤ 2) :
    (afterBarrier k : MainPc G).arrivals = k + 1 := by
  interval_cases k <;> rfl

theorem afterBarrier_passed {k : Nat} (hk : k ≤ 2) :
    (afterBarrier k : MainPc G).passed = k + 1 := by
  interval_cases k <;> rfl

theorem afterBarrier_placed (k : Nat) : (afterBarrier k : MainPc G).Placed := by
  unfold afterBarrier
  split
  · exact ⟨by decide, nofun⟩
  · trivial
  · trivial

theorem afterBarrier_created (k : Nat) : (afterBarrier k : MainPc G).created = G := by
  unfold afterBarrier
  split <;> rfl

theorem afterBarrier_ne (k : Nat) : (afterBarrier k : MainPc G) ≠ .spawnCounter := by
  unfold afterBarrier
  split <;> nofun

end MainPc

namespace Program

variable {G : Nat} {options : Options} {p next : Program G}

/-! ## The rounds -/

/-- A number for `main` and for each generator, by their places. -/
def tell (ofMain : MainPc G → Nat) (ofGenerator : GeneratorPc → Nat) (p : Program G) :
    Option (Fin G) → Nat
  | none => ofMain p.main
  | some g => ofGenerator (p.generator g)

abbrev arrivals (p : Program G) : Option (Fin G) → Nat :=
  tell MainPc.arrivals GeneratorPc.arrivals p

abbrev passed (p : Program G) : Option (Fin G) → Nat :=
  tell MainPc.passed GeneratorPc.passed p

theorem tell_generator {ofMain : MainPc G → Nat} {ofGenerator : GeneratorPc → Nat} {g : Fin G}
    {pc : GeneratorPc} (hgenerator : next.generator = Function.update p.generator g pc)
    (hmain : next.main = p.main) :
    next.tell ofMain ofGenerator =
      Function.update (p.tell ofMain ofGenerator) (some g) (ofGenerator pc) := by
  funext q
  cases q with
  | none => simp [tell, hmain]
  | some g' =>
      by_cases hg : g' = g
      · subst hg
        simp [tell, hgenerator]
      · simp [tell, hgenerator, hg]

theorem tell_main {ofMain : MainPc G → Nat} {ofGenerator : GeneratorPc → Nat} {pc : MainPc G}
    (hmain : next.main = pc) (hgenerator : next.generator = p.generator) :
    next.tell ofMain ofGenerator =
      Function.update (p.tell ofMain ofGenerator) none (ofMain pc) := by
  funext q
  cases q with
  | none => simp [tell, hmain]
  | some g => simp [tell, hgenerator]

/-- The barrier accounts for the arrivals, and nobody is ahead of it. -/
structure InRounds (p : Program G) : Prop where
  accounts : p.barrier.Accounts p.arrivals
  passed : ∀ q, p.passed q ≤ p.barrier.round

namespace InRounds

variable (hrounds : p.InRounds) {q : Option (Fin G)}
include hrounds

theorem passed_update {times : Nat} {barrier : Barrier} (htimes : times ≤ barrier.round)
    (hround : p.barrier.round ≤ barrier.round) (q' : Option (Fin G)) :
    Function.update p.passed q times q' ≤ barrier.round := by
  by_cases hq : q' = q
  · rw [hq, Function.update_self]
    exact htimes
  · rw [Function.update_of_ne hq]
    exact (hrounds.passed q').trans hround

/-- A move between two barriers, or behind one that has been opened. -/
theorem move {times : Nat} (hbarrier : next.barrier = p.barrier)
    (harrivals : next.arrivals = Function.update p.arrivals q (p.arrivals q))
    (hpassed : next.passed = Function.update p.passed q times)
    (htimes : times ≤ p.barrier.round) : next.InRounds where
  accounts := by
    rw [hbarrier, harrivals, Function.update_eq_self]
    exact hrounds.accounts
  passed := by
    rw [hbarrier, hpassed]
    exact hrounds.passed_update htimes le_rfl

/-- Whoever comes to barrier `k` is in round `k`. -/
theorem round_eq {k : Nat} (harrivals : p.arrivals q = k) (hpassed : p.passed q = k) :
    p.barrier.round = k := by
  have hle := hrounds.accounts.le q
  have hge := hrounds.passed q
  omega

theorem arrive {k : Nat} (hbefore : p.arrivals q = k) (hpassed' : p.passed q = k)
    (hbarrier : next.barrier = p.barrier.arrive (G + 1))
    (harrivals : next.arrivals = Function.update p.arrivals q (k + 1))
    (hpassed : next.passed = Function.update p.passed q k) : next.InRounds := by
  have hround := hrounds.round_eq hbefore hpassed'
  have hlater : p.barrier.round ≤ (p.barrier.arrive (G + 1)).round := by
    unfold Barrier.arrive
    split
    · exact Nat.le_succ _
    · exact le_rfl
  constructor
  · have haccounts := hrounds.accounts.arrive (hbefore.trans hround.symm)
    rw [Fintype.card_option, Fintype.card_fin, hround] at haccounts
    rwa [hbarrier, harrivals]
  · rw [hbarrier, hpassed]
    exact hrounds.passed_update (by omega) hlater

theorem goGenerator {g : Fin G} {pc : GeneratorPc} (hbarrier : next.barrier = p.barrier)
    (hmain : next.main = p.main) (hgenerator : next.generator = Function.update p.generator g pc)
    (harrivals : pc.arrivals = (p.generator g).arrivals)
    (hpassed : pc.passed ≤ p.barrier.round) : next.InRounds := by
  refine hrounds.move hbarrier ?_ (tell_generator hgenerator hmain) hpassed
  rw [arrivals, tell_generator hgenerator hmain, harrivals]
  rfl

theorem goMain {pc : MainPc G} (hbarrier : next.barrier = p.barrier) (hmain : next.main = pc)
    (hgenerator : next.generator = p.generator) (harrivals : pc.arrivals = p.main.arrivals)
    (hpassed : pc.passed ≤ p.barrier.round) : next.InRounds := by
  refine hrounds.move hbarrier ?_ (tell_main hmain hgenerator) hpassed
  rw [arrivals, tell_main hmain hgenerator, harrivals]
  rfl

/-- A step of the counter, or one that stops the program. -/
theorem stay (hbarrier : next.barrier = p.barrier) (hmain : next.main = p.main)
    (hgenerator : next.generator = p.generator) : next.InRounds :=
  hrounds.goMain hbarrier hmain hgenerator rfl (hrounds.passed none)

end InRounds

/-! ## The places of a run -/

/-- The threads are where a run may be, and those that `main` has created exist. -/
structure InPlace (p : Program G) : Prop where
  generator : ∀ g, (p.generator g).Placed
  main : p.main.Placed
  created : ∀ g : Fin G, p.generator g = .notCreated ↔ p.main.created ≤ g
  counter : p.counter = .notCreated ↔ p.main = .spawnCounter

namespace InPlace

variable (hplace : p.InPlace)
include hplace

theorem goGenerator {g : Fin G} {pc : GeneratorPc} (hmain : next.main = p.main)
    (hcounter : next.counter = p.counter)
    (hgenerator : next.generator = Function.update p.generator g pc) (hplaced : pc.Placed)
    (hcreated : p.generator g ≠ .notCreated) (hpc : pc ≠ .notCreated) : next.InPlace where
  generator := fun g' => by
    by_cases hg : g' = g
    · subst hg
      simpa [hgenerator] using hplaced
    · simpa [hgenerator, hg] using hplace.generator g'
  main := hmain ▸ hplace.main
  created := fun g' => by
    rw [hmain, hgenerator, ← hplace.created]
    by_cases hg : g' = g
    · subst hg
      simp [hcreated, hpc]
    · simp [hg]
  counter := by
    rw [hmain, hcounter]
    exact hplace.counter

theorem goMain {pc : MainPc G} (hmain : next.main = pc) (hcounter : next.counter = p.counter)
    (hgenerator : next.generator = p.generator) (hplaced : pc.Placed)
    (hcreated : pc.created = p.main.created) (hspawned : p.main ≠ .spawnCounter)
    (hpc : pc ≠ .spawnCounter) : next.InPlace where
  generator := hgenerator ▸ hplace.generator
  main := hmain ▸ hplaced
  created := fun g => by
    rw [hmain, hgenerator, hcreated]
    exact hplace.created g
  counter := by
    rw [hmain, hcounter, hplace.counter]
    exact ⟨fun heq => absurd heq hspawned, fun heq => absurd heq hpc⟩

theorem goCounter {pc : CounterPc} (hmain : next.main = p.main) (hcounter : next.counter = pc)
    (hgenerator : next.generator = p.generator) (hspawned : p.counter ≠ .notCreated)
    (hpc : pc ≠ .notCreated) : next.InPlace where
  generator := hgenerator ▸ hplace.generator
  main := hmain ▸ hplace.main
  created := fun g => by
    rw [hmain, hgenerator]
    exact hplace.created g
  counter := by
    rw [hmain, hcounter, ← hplace.counter]
    exact ⟨fun heq => absurd heq hpc, fun heq => absurd heq hspawned⟩

theorem spawnCounter (hpc : p.main = .spawnCounter) :
    ((p.goCounter (.turn 0)).goMain .assertGenerators).InPlace where
  generator := hplace.generator
  main := trivial
  created := fun g => (hplace.created g).trans (by rw [hpc]; rfl)
  counter := ⟨nofun, nofun⟩

theorem notCreated {g : Fin G} (hpc : p.main = .spawnGenerator g) :
    p.generator g = .notCreated := by
  rw [hplace.created, hpc]
  exact le_rfl

theorem spawnGenerator {g : Fin G} (hpc : p.main = .spawnGenerator g) :
    ((p.goGenerator g (.barrier 0 none)).goMain (.spawnGenerator (g + 1))).InPlace where
  generator := fun g' => by
    by_cases hg : g' = g
    · subst hg
      simp only [Program.goMain, Program.goGenerator, Function.update_self]
      exact ⟨Nat.zero_le _, fun _ heq => by cases heq⟩
    · simpa [Program.goGenerator, Program.goMain, hg] using hplace.generator g'
  main := g.isLt
  created := fun g' => by
    have hbefore := hplace.created g'
    simp only [hpc, MainPc.created] at hbefore
    by_cases hg : g' = g
    · subst hg
      simp [Program.goGenerator, Program.goMain, MainPc.created]
    · have hne : (g' : Nat) ≠ g := fun heq => hg (Fin.ext heq)
      simp only [Program.goGenerator, Program.goMain, MainPc.created, Function.update_of_ne hg,
        hbefore]
      omega
  counter := ⟨fun heq => by simpa [hpc] using hplace.counter.mp heq, fun heq => by cases heq⟩

end InPlace

/-! ## Every run -/

/-- The threads are where their rounds and their creation allow. -/
structure Phased (p : Program G) : Prop where
  rounds : p.InRounds
  place : p.InPlace

theorem Move.inRounds {turn : Turn G} (hmove : Move options p turn next) (hphased : p.Phased) :
    next.InRounds := by
  obtain ⟨hrounds, hplace⟩ := hphased
  cases hmove with
  | arrive g random k hpc =>
      have hmoved : (p.arrive.goGenerator g (.barrier k (some p.barrier.round))).generator =
          Function.update p.generator g (.barrier k (some p.barrier.round)) := rfl
      refine hrounds.arrive (q := some g) (k := k) ?_ ?_ rfl ?_ ?_
      · simp [tell, hpc, GeneratorPc.arrivals, arrivalsAt]
      · simp [tell, hpc, GeneratorPc.passed]
      · exact tell_generator hmoved rfl
      · exact tell_generator hmoved rfl
  | pass g random k round hpc hopen =>
      have hplaced := hplace.generator g
      rw [hpc] at hplaced
      obtain ⟨hk, hround⟩ := hplaced
      obtain rfl := hround round rfl
      refine hrounds.goGenerator rfl rfl rfl ?_ ?_
      · rw [GeneratorPc.afterBarrier_arrivals hk, hpc]
        rfl
      · rw [GeneratorPc.afterBarrier_passed hk]
        exact hopen
  | choose g random i hpc | endLoop g random i hpc | enqueue g random i value hpc
  | account g random i value hpc | report g random i hpc =>
      have hpassed := hrounds.passed (some g)
      simp only [passed, tell, hpc] at hpassed
      exact hrounds.goGenerator rfl rfl rfl (by rw [hpc]; rfl) hpassed
  | enqueueStep g random i value hpc ring hact =>
      have hpassed := hrounds.passed (some g)
      simp only [passed, tell, hpc] at hpassed
      split
      · exact hrounds.goGenerator rfl rfl rfl (by rw [hpc]; rfl) hpassed
      · exact hrounds.goGenerator rfl rfl rfl rfl (by rw [hpc]; exact hpassed)
  | mainArrive k hpc =>
      refine hrounds.arrive (q := none) (k := k) ?_ ?_ rfl ?_ ?_
      · simp [tell, hpc, MainPc.arrivals, arrivalsAt]
      · simp [tell, hpc, MainPc.passed]
      · exact tell_main rfl rfl
      · exact tell_main rfl rfl
  | mainPass k round hpc hopen =>
      have hplaced := hplace.main
      rw [hpc] at hplaced
      obtain ⟨hk, hround⟩ := hplaced
      obtain rfl := hround round rfl
      refine hrounds.goMain rfl rfl rfl ?_ ?_
      · exact (MainPc.afterBarrier_arrivals hk).trans (by rw [hpc]; rfl)
      · exact (MainPc.afterBarrier_passed hk).le.trans hopen
  | spawnGenerator g hpc =>
      have hcreated := hplace.notCreated hpc
      have hgenerator : (p.goGenerator g (.barrier 0 none)).InRounds :=
        hrounds.goGenerator rfl rfl rfl (by rw [hcreated]; rfl) (Nat.zero_le _)
      exact hgenerator.goMain rfl rfl rfl (by simp only [Program.goGenerator, hpc]; rfl)
        (Nat.zero_le _)
  | spawnCounter hpc | assertGenerators hpc | spawned i hpc =>
      exact hrounds.goMain rfl rfl rfl (by rw [hpc]; rfl) (Nat.zero_le _)
  | collected hpc | collect g value left hpc | joinGenerator g hpc | joined i hpc
  | joinCounter hpc | compare hpc | reportTime mismatch hpc =>
      have hpassed := hrounds.passed none
      simp only [passed, tell, hpc] at hpassed
      exact hrounds.goMain rfl rfl rfl (by rw [hpc]; rfl) hpassed
  | failAssertion | failGenerators | enqueueOutOfBounds | accountOutOfBounds | divide
  | divideCounted | divideTime | dequeue | endCounting | dequeueStep | dequeueOutOfBounds
  | assertCounted | failCounted | count | countOutOfBounds | reportCounted =>
      exact hrounds.stay rfl rfl rfl

theorem Move.inPlace {turn : Turn G} (hmove : Move options p turn next) (hphased : p.Phased) :
    next.InPlace := by
  obtain ⟨hrounds, hplace⟩ := hphased
  cases hmove with
  | arrive g random k hpc =>
      have hplaced := hplace.generator g
      rw [hpc] at hplaced
      have hround : p.barrier.round = k := hrounds.round_eq (q := some g)
        (by simp [tell, hpc, GeneratorPc.arrivals, arrivalsAt])
        (by simp [tell, hpc, GeneratorPc.passed])
      refine hplace.goGenerator rfl rfl rfl ⟨hplaced.1, ?_⟩ (by rw [hpc]; nofun) nofun
      rintro round ⟨rfl⟩
      exact hround
  | pass g random k round hpc hopen =>
      exact hplace.goGenerator rfl rfl rfl (GeneratorPc.afterBarrier_placed k)
        (by rw [hpc]; nofun) (GeneratorPc.afterBarrier_ne k)
  | choose g random i hpc | enqueue g random i value hpc | account g random i value hpc
  | report g random i hpc =>
      exact hplace.goGenerator rfl rfl rfl trivial (by rw [hpc]; nofun) nofun
  | endLoop g random i hpc =>
      exact hplace.goGenerator rfl rfl rfl ⟨by decide, nofun⟩ (by rw [hpc]; nofun) nofun
  | enqueueStep g random i value hpc ring hact =>
      rw [hpc]
      refine hplace.goGenerator rfl rfl rfl ?_ (by rw [hpc]; nofun) ?_
      · split <;> trivial
      · split <;> nofun
  | dequeue i hpc | endCounting i hpc | assertCounted i value hpc | count i value hpc
  | reportCounted i hpc =>
      exact hplace.goCounter rfl rfl rfl (by rw [hpc]; nofun) nofun
  | dequeueStep i hpc =>
      rw [hpc]
      refine hplace.goCounter rfl rfl rfl (by rw [hpc]; nofun) ?_
      split <;> nofun
  | mainArrive k hpc =>
      have hplaced := hplace.main
      rw [hpc] at hplaced
      have hround : p.barrier.round = k := hrounds.round_eq (q := none)
        (by simp [tell, hpc, MainPc.arrivals, arrivalsAt]) (by simp [tell, hpc, MainPc.passed])
      refine hplace.goMain rfl rfl rfl ⟨hplaced.1, ?_⟩ (by rw [hpc]; rfl) (by rw [hpc]; nofun) nofun
      rintro round ⟨rfl⟩
      exact hround
  | mainPass k round hpc hopen =>
      exact hplace.goMain rfl rfl rfl (MainPc.afterBarrier_placed k)
        ((MainPc.afterBarrier_created k).trans (by rw [hpc]; rfl)) (by rw [hpc]; nofun)
        (MainPc.afterBarrier_ne k)
  | spawnCounter hpc => exact hplace.spawnCounter hpc
  | assertGenerators hpc =>
      exact hplace.goMain rfl rfl rfl (Nat.zero_le _) (by rw [hpc]; rfl) (by rw [hpc]; nofun) nofun
  | spawnGenerator g hpc => exact hplace.spawnGenerator hpc
  | spawned i hpc hi =>
      have hplaced := hplace.main
      rw [hpc] at hplaced
      have hall : G = i := Nat.le_antisymm (Nat.not_lt.mp hi) hplaced
      exact hplace.goMain rfl rfl rfl ⟨Nat.zero_le _, nofun⟩ (by rw [hpc]; exact hall)
        (by rw [hpc]; nofun) nofun
  | collected hpc =>
      exact hplace.goMain rfl rfl rfl ⟨le_rfl, nofun⟩ (by rw [hpc]; rfl) (by rw [hpc]; nofun) nofun
  | collect g value left hpc | joinGenerator g hpc | joined i hpc | joinCounter hpc
  | compare hpc | reportTime mismatch hpc =>
      exact hplace.goMain rfl rfl rfl trivial (by rw [hpc]; rfl) (by rw [hpc]; nofun) nofun
  | failAssertion | failGenerators | enqueueOutOfBounds | dequeueOutOfBounds | accountOutOfBounds
  | divide | divideCounted | divideTime | failCounted | countOutOfBounds =>
      exact ⟨hplace.generator, hplace.main, hplace.created, hplace.counter⟩

theorem start_phased {n : Nat} {memory : Nat → Int} : (start n memory : Program G).Phased where
  rounds :=
    { accounts := by
        have harrivals : (start n memory : Program G).arrivals = fun _ => 0 := by
          funext q
          cases q <;> rfl
        rw [harrivals]
        exact Barrier.accounts_start
      passed := fun q => by cases q <;> exact le_rfl }
  place :=
    { generator := fun _ => trivial
      main := trivial
      created := fun g => ⟨fun _ => Nat.zero_le _, fun _ => rfl⟩
      counter := ⟨fun _ => rfl, fun _ => rfl⟩ }

theorem reachable_phased {n : Nat} {memory : Nat → Int}
    (hreach : (program options n memory).Reachable p) : p.Phased := by
  apply hreach.invariant Phased start_phased
  intro p turn next _ hphased hstep
  have hmove := (step_move hstep).2
  exact ⟨hmove.inRounds hphased, hmove.inPlace hphased⟩

end Program

end OperatingSystem.Ring
