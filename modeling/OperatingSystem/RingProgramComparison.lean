import OperatingSystem.RingProgramInvariant
import Mathlib.Algebra.BigOperators.Fin

/-!
# The comparison

`main` adds up the accounts of the generators while they wait for it, and when it compares, all of
them and the counter have made their calls. The buffer has lost nothing then, so `main` finds no
mismatch.
-/

namespace OperatingSystem.Ring

open RingLoops (MAX_VALUE Fault progress progress_ok)

/-! ## Counts of entries -/

section Counts

variable {T : Type*} [DecidableEq T] {r : Ringbuffer T} {t : T} {n K R : Nat}
  {memory : Nat → Int} {guard : Ringbuffer T → T → Operation → Prop}

/-- How often an entry is in a list. -/
def countOf (entries : List (T × Int)) (t : T) (value : Int) : Nat := entries.count (t, value)

theorem countOf_eq_zero {entries : List (T × Int)} (hzero : timesOf entries t = 0) (value : Int) :
    countOf entries t value = 0 :=
  List.count_eq_zero.mpr (timesOf_eq_zero hzero value)

theorem count_values [Fintype T] (entries : List (T × Int)) (value : Int) :
    (entries.map Prod.snd).count value = ∑ t, countOf entries t value := by
  induction entries with
  | nil => simp [countOf]
  | cons entry entries ih =>
      obtain ⟨u, value'⟩ := entry
      simp only [countOf, List.map_cons, List.count_cons, Finset.sum_add_distrib] at ih ⊢
      rw [ih]
      by_cases hvalue : value' = value
      · subst hvalue
        simp
      · simp [hvalue]

theorem Generating.generated_eq {pc : GeneratorPc} {generated : Fin MAX_VALUE → Nat}
    (hgenerating : Generating K r t pc generated) (howed : pc.owed = none)
    (value : Fin MAX_VALUE) : generated value = countOf r.enqueued t (value.val : Int) := by
  have haccounted := hgenerating.accounted value
  rw [howed, if_neg nofun] at haccounted
  exact haccounted

theorem Counting.counted_eq {pc : CounterPc} {counted : Fin MAX_VALUE → Nat}
    (hcounting : Counting R r t pc counted) (howed : pc.owed = none) (value : Fin MAX_VALUE) :
    counted value = countOf r.dequeued t (value.val : Int) := by
  have haccounted := hcounting.accounted value
  rw [howed, if_neg nofun] at haccounted
  exact haccounted

end Counts

/-! ## The accounts -/

variable {G : Nat} {options : Options} {n : Nat} {memory : Nat → Int}

/-- What is left of the sum for `value`. -/
def leftOf (generated : Fin G → Fin MAX_VALUE → Nat) (left : List (Fin G × Fin MAX_VALUE))
    (value : Fin MAX_VALUE) : Nat :=
  (left.map fun entry => if entry.2 = value then generated entry.1 value else 0).sum

theorem leftOf_entries (generated : Fin G → Fin MAX_VALUE → Nat) (value : Fin MAX_VALUE) :
    leftOf generated (entries G) value = ∑ g, generated g value := by
  rw [leftOf, entries, List.map_flatMap, List.flatMap_def, List.sum_flatten, List.map_map,
    Fin.sum_univ_def]
  apply congrArg List.sum
  apply List.map_congr_left
  intro g _
  simp only [Function.comp_apply, List.map_map]
  rw [← Fin.sum_univ_def]
  simp

def MainPc.left : MainPc G → List (Fin G × Fin MAX_VALUE)
  | .collect left => left
  | _ => []

namespace Program

variable {p next : Program G}

/-- `main` has added up what it has read of the accounts, which do not change any more. -/
structure Collected (p : Program G) : Prop where
  before : p.main.passed ≤ 1 → ∀ value, p.generatedValues value = 0
  after : 2 ≤ p.main.passed → ∀ value, p.generatedValues value +
    leftOf p.generated p.main.left value = ∑ g, p.generated g value
  counted : p.main = .compare → p.counter = .finished ∧ p.countedValues = p.valueCounter

theorem start_collected : (start n memory : Program G).Collected :=
  ⟨fun _ _ => rfl, nofun, nofun⟩

namespace Collected

variable (hcollected : p.Collected)
include hcollected

/-- A step that leaves the accounts and the sums. -/
theorem goMain {pc : MainPc G} (hmain : next.main = pc) (hgenerated : next.generated = p.generated)
    (hvalues : next.generatedValues = p.generatedValues) (hpassed : pc.passed = p.main.passed)
    (hleft : pc.left = p.main.left)
    (hcounted : pc = .compare → next.counter = .finished ∧ next.countedValues = next.valueCounter) :
    next.Collected where
  before := by
    rw [hmain, hvalues, hpassed]
    exact hcollected.before
  after := by
    rw [hmain, hgenerated, hvalues, hpassed, hleft]
    exact hcollected.after
  counted := by
    rw [hmain]
    exact hcounted

/-- A step of the counter, which has not finished. -/
theorem goCounter (hmain : next.main = p.main) (hgenerated : next.generated = p.generated)
    (hvalues : next.generatedValues = p.generatedValues) (hcounter : p.counter ≠ .finished) :
    next.Collected :=
  hcollected.goMain hmain hgenerated hvalues rfl rfl fun hpc =>
    absurd (hcollected.counted hpc).1 hcounter

/-- A step of a generator that leaves its account. -/
theorem goGenerator (hmain : next.main = p.main) (hgenerated : next.generated = p.generated)
    (hvalues : next.generatedValues = p.generatedValues) (hcounter : next.counter = p.counter)
    (hcounted : next.countedValues = p.countedValues)
    (hcounts : next.valueCounter = p.valueCounter) : next.Collected :=
  hcollected.goMain hmain hgenerated hvalues rfl rfl fun hpc => by
    rw [hcounter, hcounted, hcounts]
    exact hcollected.counted hpc

end Collected

theorem Move.collected_generator {g : Fin G} {random : Nat}
    (hmove : Move options p (.generator g random) next) (hphased : p.Phased)
    (hcollected : p.Collected) : next.Collected := by
  cases hmove with
  | account _ _ i value hpc entry hentry =>
      -- the generator has not come to the second barrier, so `main` has not passed it
      have hround := hphased.rounds.accounts.le (some g)
      have hmain := hphased.rounds.passed none
      simp only [arrivals, passed, tell, hpc, GeneratorPc.arrivals] at hround hmain
      have hearly : p.main.passed ≤ 1 := hmain.trans hround
      refine ⟨fun _ => hcollected.before hearly, fun hlate => ?_, fun hcompare => ?_⟩
      · exact absurd (show 2 ≤ p.main.passed from hlate) (by omega)
      · rw [show p.main = .compare from hcompare] at hearly
        exact absurd hearly (show ¬ 3 ≤ 1 by decide)
  | _ => exact hcollected.goGenerator rfl rfl rfl rfl rfl rfl

theorem Move.collected_counter (hmove : Move options p .counter next)
    (hcollected : p.Collected) : next.Collected := by
  cases hmove with
  | dequeue i hpc | endCounting i hpc | dequeueStep i hpc | assertCounted i value hpc
  | failCounted i value hpc | count i value hpc | countOutOfBounds i value hpc
  | dequeueOutOfBounds i hpc | reportCounted i hpc | divideCounted i hpc =>
      exact hcollected.goCounter rfl rfl rfl (by rw [hpc]; nofun)

theorem leftOf_cons (generated : Fin G → Fin MAX_VALUE → Nat) (g : Fin G)
    (value : Fin MAX_VALUE) (left : List (Fin G × Fin MAX_VALUE)) (value' : Fin MAX_VALUE) :
    leftOf generated ((g, value) :: left) value' =
      (if value = value' then generated g value' else 0) + leftOf generated left value' := by
  rw [leftOf, List.map_cons, List.sum_cons, leftOf]

theorem Move.collected_main (hmove : Move options p .main next) (hcollected : p.Collected) :
    next.Collected := by
  cases hmove with
  | mainPass k round hpc hopen =>
      have hbefore := hcollected.before
      rw [hpc] at hbefore
      rcases k with _ | _ | k
      · exact ⟨fun _ => hbefore (Nat.zero_le 1),
          fun hlate => absurd hlate (show ¬ 2 ≤ 1 by decide),
          fun hcompare => by cases hcompare⟩
      · -- nothing has been collected, and everything is left
        refine ⟨fun hearly => absurd hearly (show ¬ 2 ≤ 1 by decide), fun _ value => ?_,
          fun hcompare => by cases hcompare⟩
        have hzero : p.generatedValues value = 0 := hbefore le_rfl value
        have hleft := leftOf_entries p.generated value
        exact (congrArg (· + _) hzero).trans ((Nat.zero_add _).trans hleft)
      · have hafter := hcollected.after
        rw [hpc] at hafter
        exact ⟨fun hearly => absurd hearly (show ¬ 3 ≤ 1 by decide),
          fun _ => hafter (Nat.le_add_left 2 k), fun hcompare => by cases hcompare⟩
  | collect g value left hpc =>
      have hafter := hcollected.after
      rw [hpc] at hafter
      refine ⟨fun hearly => absurd hearly (show ¬ 2 ≤ 1 by decide), fun _ value' => ?_,
        fun hcompare => by cases hcompare⟩
      have hsum := hafter le_rfl value'
      rw [MainPc.left, leftOf_cons] at hsum
      refine Eq.trans ?_ hsum
      by_cases hvalue : value = value'
      · subst hvalue
        simp [collectValue, goMain, MainPc.left, Nat.add_assoc]
      · simp [collectValue, goMain, MainPc.left, hvalue, Ne.symm hvalue]
  | joinCounter hpc hfinished =>
      exact hcollected.goMain rfl rfl rfl (by rw [hpc]; rfl) (by rw [hpc]; rfl)
        fun _ => ⟨hfinished, rfl⟩
  | failGenerators hpc | divideTime mismatch hpc =>
      exact hcollected.goMain rfl rfl rfl rfl rfl hcollected.counted
  | spawnCounter hpc | assertGenerators hpc | spawnGenerator g hpc | spawned i hpc
  | mainArrive k hpc | collected hpc
  | joinGenerator g hpc | joined i hpc | compare hpc | reportTime mismatch hpc =>
      exact hcollected.goMain rfl rfl rfl (by rw [hpc]; rfl) (by rw [hpc]; rfl)
        fun hcompare => by cases hcompare

theorem reachable_collected (hreach : (program options n memory).Reachable p) : p.Collected := by
  apply hreach.invariant Collected start_collected
  intro p turn next hreach hcollected hstep
  have hmove := (step_move hstep).2
  cases turn with
  | main => exact hmove.collected_main hcollected
  | generator g random => exact hmove.collected_generator (reachable_phased hreach) hcollected
  | counter => exact hmove.collected_counter hcollected

/-! ## At the comparison -/

/-- A generator that has arrived at the last barrier has done its requests. -/
theorem Phased.generator_settled (hphased : p.Phased) (hpassed : 3 ≤ p.main.passed) (K : Nat)
    (g : Fin G) : (p.generator g).calls K = K ∧ (p.generator g).calling = none ∧
      (p.generator g).owed = none := by
  have hround := hphased.rounds.passed none
  have harrivals := hphased.rounds.accounts.le (some g)
  have hplaced := hphased.place.generator g
  have hthree : 3 ≤ (p.generator g).arrivals := (hpassed.trans hround).trans harrivals
  cases hpc : p.generator g with
  | finished => exact ⟨rfl, rfl, rfl⟩
  | barrier k since =>
      rw [hpc] at hplaced hthree
      have hk : 2 ≤ k := by
        cases since <;> simp only [GeneratorPc.arrivals, arrivalsAt] at hthree <;> omega
      obtain rfl : k = 2 := Nat.le_antisymm hplaced.1 hk
      exact ⟨rfl, rfl, rfl⟩
  | notCreated | turn | assertValue | enqueue | account | report =>
      rw [hpc] at hthree
      exact absurd hthree (by simp [GeneratorPc.arrivals])

/-- What `main` compares is equal. -/
theorem Working.agree (hworking : p.Working options n memory) (hphased : p.Phased)
    (hcollected : p.Collected) (hpc : p.main = .compare) (value : Fin MAX_VALUE) :
    p.generatedValues value = p.countedValues value := by
  have hpassed : 3 ≤ p.main.passed := by rw [hpc]; exact le_rfl
  have hsettled := hphased.generator_settled hpassed options.nrGenerate
  obtain ⟨hfinished, hcounts⟩ := hcollected.counted hpc
  have hcounting := hworking.counter
  rw [hfinished] at hcounting
  -- everybody is outside the buffer, and as much has been put in as taken out
  have hidle : ∀ t, p.ring.stage t = .idle := by
    intro t
    cases t with
    | none => exact hcounting.idle rfl
    | some g => exact (hworking.generator g).idle (hsettled g).2.1
  have hlength : p.ring.enqueued.length = p.ring.dequeued.length := by
    rw [dequeued_length hworking.ring, enqueued_length hworking.ring, hcounting.calls,
      Finset.sum_congr rfl fun g _ => (hworking.generator g).calls.trans (hsettled g).1]
    simp [CounterPc.calls]
  have hperm := (values_perm hworking.ring hidle hlength).count_eq (value.val : Int)
  rw [count_values, count_values, Fintype.sum_option, Fintype.sum_option] at hperm
  have hdequeued : ∀ g : Fin G, countOf p.ring.dequeued (some g) (value.val : Int) = 0 := fun g =>
    countOf_eq_zero ((reachable_employed hworking.ring (some g)).generator g rfl).1 _
  have henqueued : countOf p.ring.enqueued none (value.val : Int) = 0 :=
    countOf_eq_zero ((reachable_employed hworking.ring none).counter rfl).1 _
  rw [henqueued, Finset.sum_eq_zero fun g _ => hdequeued g, Nat.add_zero, Nat.zero_add] at hperm
  have hafter := hcollected.after (by omega) value
  rw [hpc] at hafter
  calc p.generatedValues value = ∑ g, p.generated g value := hafter
    _ = ∑ g, countOf p.ring.enqueued (some g) (value.val : Int) :=
      Finset.sum_congr rfl fun g _ => (hworking.generator g).generated_eq (hsettled g).2.2 value
    _ = countOf p.ring.dequeued none (value.val : Int) := hperm.symm
    _ = p.countedValues value := by rw [hcounts, hcounting.counted_eq rfl]

/-- `main` has found no mismatch. -/
def Compared (p : Program G) : Prop :=
  ∀ mismatch, p.main = .report mismatch ∨ p.main = .finished mismatch → mismatch = false ∧
    ∀ value, p.generatedValues value = p.countedValues value

theorem reachable_compared (hfits : options.nrGenerate * G < 2 ^ 64)
    (hreach : (program options n memory).Reachable p) : p.Compared := by
  apply hreach.invariant Compared
  · rintro mismatch (hpc | hpc) <;> cases hpc
  intro p turn next hreach hcompared hstep
  have hworking := reachable_working hfits hreach
  have hphased := reachable_phased hreach
  cases (step_move hstep).2 with
  | compare hpc =>
      have hagree := hworking.agree hphased (reachable_collected hreach) hpc
      have hnone : ¬ ∃ value, p.generatedValues value ≠ p.countedValues value :=
        not_exists.mpr fun value => not_not.mpr (hagree value)
      rintro mismatch (hmain | hmain)
      · exact ⟨(MainPc.report.inj hmain).symm.trans (decide_eq_false hnone), hagree⟩
      · cases hmain
  | reportTime mismatch hpc =>
      rintro mismatch' (hmain | hmain)
      · cases hmain
      · obtain rfl := MainPc.finished.inj hmain
        exact hcompared mismatch (.inl hpc)
  | spawnCounter | assertGenerators | spawnGenerator | spawned | mainArrive | collected | collect
  | joinGenerator | joined | joinCounter =>
      rintro mismatch (hmain | hmain) <;> cases hmain
  | mainPass k round hpc hopen =>
      rintro mismatch (hmain | hmain) <;> rcases k with _ | _ | k <;> cases hmain
  | _ => exact hcompared

/-- Nothing but the division of a report stops the program, and `main` finds no mismatch. -/
theorem no_mismatch (hn : 0 < n) (hgenerators : 0 < G) (hgenerate : 0 < options.nrGenerate)
    (hfits : options.nrGenerate * G < 2 ^ 64)
    (hreach : (program options n memory).Reachable p) :
    (p.stopped = none ∨ p.stopped = some .divisionByZero ∧
      (¬ SafeReports options G ∨ options.elapsed = 0)) ∧
      ∀ mismatch, p.main = .report mismatch ∨ p.main = .finished mismatch → mismatch = false ∧
        ∀ value, p.generatedValues value = p.countedValues value :=
  ⟨reachable_stopped hn hgenerators hgenerate hfits hreach, reachable_compared hfits hreach⟩

/-- The program with `-q -r -g 2 -n 1 -s 2`. -/
def pair : Options := ⟨false, .random, 1, 1⟩

/-- The counter sleeps in the empty buffer while the generators take turns in it. -/
def schedule : List (Turn 2) :=
  let first : Turn 2 := .generator ⟨0, Nat.two_pos⟩ 5
  let second : Turn 2 := .generator ⟨1, Nat.one_lt_two⟩ 9
  List.replicate 6 .main ++ List.replicate 9 .counter ++
    (List.replicate 23 [first, second]).flatten ++ List.replicate 26 first ++
    List.replicate 25 second ++ List.replicate 69 .counter ++ List.replicate 261 .main ++
    (List.replicate 3 [first, second]).flatten ++ List.replicate 7 .main

def final : Program 2 := (schedule.foldlM (step pair) (start 2 fun _ => 0)).get (by decide +kernel)

theorem final_reachable : (program pair 2 fun _ => 0).Reachable final :=
  Machine.reachable_foldlM (fun _ _ _ hstep => hstep) Machine.reachable_init
    (Option.some_get _).symm

theorem no_mismatch_final : final.main = .finished false ∧
    final.countedValues 5 = 1 ∧ final.countedValues 9 = 1 ∧
    ((final.stopped = none ∨ final.stopped = some .divisionByZero ∧
      (¬ SafeReports pair 2 ∨ pair.elapsed = 0)) ∧
      ∀ mismatch, final.main = .report mismatch ∨ final.main = .finished mismatch →
        mismatch = false ∧ ∀ value, final.generatedValues value = final.countedValues value) :=
  ⟨by decide +kernel, by decide +kernel, by decide +kernel,
    no_mismatch (by decide) (by decide) (by decide) (by decide) final_reachable⟩

end Program

end OperatingSystem.Ring
