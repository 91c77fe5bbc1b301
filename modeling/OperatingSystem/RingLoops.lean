import OperatingSystem.Outcomes

/-!
# The loops of the generators and of the counter

`generator_main` enqueues `nr_generate` values, and `counter_main` dequeues `nr_requests`. Both
report their progress after every sixteenth part of the work, for which they divide by a sixteenth
of their total; before the first value they do not.
-/

namespace OperatingSystem.RingLoops

abbrev MIN_VALUE : Nat := 0
abbrev MAX_VALUE : Nat := 128

/-- `enum generator_types`. -/
inductive GeneratorType where
  | constant
  | random
  | mixed
deriving DecidableEq, Repr

/-- `generator_fn_constant`. -/
def generatorFnConstant : Fin MAX_VALUE := 43

/-- `generator_fn_random`, for what `random()` returns. -/
def generatorFnRandom (random : Nat) : Fin MAX_VALUE :=
  ⟨MIN_VALUE + random % (MAX_VALUE - MIN_VALUE), by
    have hlt := Nat.mod_lt random (show 0 < MAX_VALUE - MIN_VALUE by decide)
    omega⟩

/-- `assign_generator_fn`, called for what `random()` returns in each turn. -/
def assignGeneratorFn (id : Nat) : GeneratorType → Nat → Fin MAX_VALUE
  | .constant => fun _ => generatorFnConstant
  | .random => generatorFnRandom
  | .mixed => if id % 2 = 0 then fun _ => generatorFnConstant else generatorFnRandom

inductive Fault where
  | divisionByZero
deriving DecidableEq, Repr

def quotient (a b : Nat) : Except Fault Nat := if b = 0 then .error .divisionByZero else .ok (a / b)

def remainder (a b : Nat) : Except Fault Nat :=
  if b = 0 then .error .divisionByZero else .ok (a % b)

/-- The numbers of a line of progress. -/
structure Progress where
  done : Nat
  total : Nat
  percent : Nat
deriving DecidableEq, Repr

/-- `if (verbose && i && i % (total >> 4) == 0) printf(.., i, total, i * 100 / total)`. -/
def progress (verbose : Bool) (total i : Nat) : Except Fault (List Progress) := do
  if verbose ∧ i ≠ 0 then
    if (← remainder i (total >>> 4)) = 0 then
      return [⟨i, total, ← quotient (i * 100 % 2 ^ 64) total⟩]
  return []

/-- What a thread has done: the values that it has enqueued or dequeued, its account of them, and
what it has printed. -/
structure Tally where
  values : List (Fin MAX_VALUE)
  counts : Fin MAX_VALUE → Nat
  printed : List Progress

def Tally.start : Tally := ⟨[], fun _ => 0, []⟩

/-- A turn of either loop. -/
def turn (verbose : Bool) (total : Nat) (next : Nat → Fin MAX_VALUE) (t : Tally) (i : Nat) :
    Except Fault Tally := do
  let value := next i
  let counts := Function.update t.counts value (t.counts value + 1)
  let lines ← progress verbose total i
  return ⟨t.values ++ [value], counts, t.printed ++ lines⟩

/-- `generator_main`. The values of the tally have been passed to `__enqueue_rb`. -/
def generatorMain (verbose : Bool) (nrGenerate : Nat) (generatorFn : Nat → Fin MAX_VALUE) :
    Except Fault Tally :=
  (List.range nrGenerate).foldlM (turn verbose nrGenerate generatorFn) .start

/-- `counter_main`, for the values that `__dequeue_rb` returns. -/
def counterMain (verbose : Bool) (nrRequests : Nat) (dequeueRb : Nat → Fin MAX_VALUE) :
    Except Fault Tally :=
  (List.range nrRequests).foldlM (turn verbose nrRequests dequeueRb) .start

/-- `nr_requests_to_generate` of `main`, an `unsigned long`. -/
def nrRequestsToGenerate (nrGenerate nrGenerators : Nat) : Nat := nrGenerate * nrGenerators % 2 ^ 64

/-- Every generator enqueues its `nr_generate` values, and the counter dequeues as many values as
all of them enqueue. -/
def Completes (verbose : Bool) (nrGenerate nrGenerators : Nat)
    (generatorFn : Nat → Nat → Fin MAX_VALUE) (dequeueRb : Nat → Fin MAX_VALUE) : Prop :=
  (∀ id < nrGenerators, ∃ my, generatorMain verbose nrGenerate (generatorFn id) = .ok my ∧
    my.values = (List.range nrGenerate).map (generatorFn id)) ∧
  ∃ counted, counterMain verbose (nrRequestsToGenerate nrGenerate nrGenerators) dequeueRb =
      .ok counted ∧
    counted.values = (List.range (nrGenerate * nrGenerators)).map dequeueRb

/-! ## One loop -/

section Loop

variable {verbose : Bool} {total : Nat}

theorem shiftRight_four_eq_zero_iff (total : Nat) : total >>> 4 = 0 ↔ total < 16 := by
  rw [Nat.shiftRight_eq_div_pow]
  omega

/-- A turn divides by zero if it reports and the total is less than sixteen. -/
theorem progress_fails {i : Nat} (hverbose : verbose = true) (hi : i ≠ 0) (htotal : total < 16) :
    progress verbose total i = .error .divisionByZero := by
  have hshift : total >>> 4 = 0 := (shiftRight_four_eq_zero_iff total).mpr htotal
  simp only [progress, if_pos (And.intro hverbose hi), remainder, if_pos hshift]
  rfl

theorem progress_ok {i : Nat} (hsafe : verbose = true → i ≠ 0 → 16 ≤ total) :
    ∃ lines, progress verbose total i = .ok lines := by
  by_cases hreport : verbose = true ∧ i ≠ 0
  · have htotal : 16 ≤ total := hsafe hreport.1 hreport.2
    have hshift : total >>> 4 ≠ 0 := fun hzero => by
      have hlt := (shiftRight_four_eq_zero_iff total).mp hzero
      omega
    have hnonzero : total ≠ 0 := by omega
    simp only [progress, if_pos hreport, remainder, if_neg hshift, ok_bind, quotient,
      if_neg hnonzero]
    split_ifs
    · exact ⟨_, rfl⟩
    · exact ⟨_, rfl⟩
  · simp only [progress, if_neg hreport]
    exact ⟨_, rfl⟩

/-- The values of a tally are accounted for. -/
def Tally.Accounted (next : Nat → Fin MAX_VALUE) (done : List Nat) (t : Tally) : Prop :=
  t.values = done.map next ∧ ∀ value, t.counts value = t.values.count value

theorem turn_accounted {next : Nat → Fin MAX_VALUE} {done : List Nat} {t : Tally} {i : Nat}
    (hsafe : verbose = true → i ≠ 0 → 16 ≤ total) (haccounted : t.Accounted next done) :
    ∃ t', turn verbose total next t i = .ok t' ∧ t'.Accounted next (done ++ [i]) := by
  obtain ⟨lines, hlines⟩ := progress_ok hsafe
  obtain ⟨hvalues, hcounts⟩ := haccounted
  refine ⟨_, by rw [turn, hlines]; rfl, ?_, fun value => ?_⟩
  · simp [hvalues]
  · rcases eq_or_ne value (next i) with rfl | hne
    · simp [hcounts]
    · simp [hcounts, hne, hne.symm]

variable {next : Nat → Fin MAX_VALUE}

/-- A loop that reports and ends has one turn at most, or at least sixteen. -/
theorem safe_of_loop {t : Tally}
    (hloop : (List.range total).foldlM (turn verbose total next) .start = .ok t) :
    verbose = true → total ≤ 1 ∨ 16 ≤ total := by
  intro hverbose
  by_contra hfew
  -- the second turn reports
  have hone : 1 ∈ List.range total := List.mem_range.mpr (by omega)
  refine foldlM_fails (fun t t' hturn => ?_) hone _ t hloop
  rw [turn, progress_fails hverbose one_ne_zero (by omega)] at hturn
  cases hturn

theorem loop_of_safe (next : Nat → Fin MAX_VALUE)
    (hsafe : verbose = true → total ≤ 1 ∨ 16 ≤ total) :
    ∃ t, (List.range total).foldlM (turn verbose total next) .start = .ok t ∧
      t.Accounted next (List.range total) := by
  refine foldlM_invariant (Tally.Accounted next) ⟨rfl, fun value => rfl⟩
    fun done i rest t hsplit haccounted => turn_accounted (fun hverbose hi => ?_) haccounted
  have hlt : i < total := List.mem_range.mp (by simp [hsplit])
  have htotal := hsafe hverbose
  omega

theorem loop_length {t : Tally}
    (hloop : (List.range total).foldlM (turn verbose total next) .start = .ok t) :
    t.values.length = total := by
  obtain ⟨t', hloop', haccounted⟩ := loop_of_safe next (safe_of_loop hloop)
  obtain rfl := Except.ok.inj (hloop'.symm.trans hloop)
  rw [haccounted.1, List.length_map, List.length_range]

end Loop

/-! ## All loops -/

/-- All loops do their work if and only if the number of requests fits its type and, unless the
program is quiet, each generator has one request or at least sixteen, and so have all together. -/
theorem loops_complete_iff (verbose : Bool) {nrGenerate nrGenerators : Nat}
    (hgenerate : 1 ≤ nrGenerate) (hgenerators : 1 ≤ nrGenerators) (type : GeneratorType)
    (random : Nat → Nat → Nat) (dequeueRb : Nat → Fin MAX_VALUE) :
    Completes verbose nrGenerate nrGenerators
        (fun id i => assignGeneratorFn id type (random id i)) dequeueRb ↔
      nrGenerate * nrGenerators < 2 ^ 64 ∧
        (verbose = true → 16 ≤ nrGenerate ∨
          nrGenerate = 1 ∧ (nrGenerators = 1 ∨ 16 ≤ nrGenerators)) := by
  constructor
  · rintro ⟨hgenerator, counted, hcounter, hcounted⟩
    have hrequests : nrRequestsToGenerate nrGenerate nrGenerators = nrGenerate * nrGenerators := by
      rw [← loop_length hcounter, hcounted, List.length_map, List.length_range]
    refine ⟨?_, fun hverbose => ?_⟩
    · rw [← hrequests]
      exact Nat.mod_lt _ (by decide)
    · obtain ⟨my, hloop, -⟩ := hgenerator 0 hgenerators
      have hone := safe_of_loop hloop hverbose
      have hall := safe_of_loop hcounter hverbose
      rw [hrequests] at hall
      rcases hone with hle | hmany
      · obtain rfl : nrGenerate = 1 := by omega
        rw [one_mul] at hall
        exact .inr ⟨rfl, by omega⟩
      · exact .inl hmany
  · rintro ⟨hfits, hsafe⟩
    have hrequests : nrRequestsToGenerate nrGenerate nrGenerators = nrGenerate * nrGenerators :=
      Nat.mod_eq_of_lt hfits
    constructor
    · intro id _
      have hone : verbose = true → nrGenerate ≤ 1 ∨ 16 ≤ nrGenerate := by
        intro hverbose
        have hmany := hsafe hverbose
        omega
      obtain ⟨my, hloop, haccounted⟩ := loop_of_safe _ hone
      exact ⟨my, hloop, haccounted.1⟩
    · have hall : verbose = true → nrGenerate * nrGenerators ≤ 1 ∨
          16 ≤ nrGenerate * nrGenerators := by
        intro hverbose
        rcases hsafe hverbose with hmany | ⟨rfl, hfew⟩
        · exact .inr (hmany.trans (Nat.le_mul_of_pos_right _ hgenerators))
        · rw [one_mul]
          omega
      rw [counterMain, hrequests]
      obtain ⟨counted, hloop, haccounted⟩ := loop_of_safe _ hall
      exact ⟨counted, hloop, haccounted.1⟩

/-- Sixteen requests for each of two generators. -/
theorem loops_complete_iff_sixteen :
    Completes true 16 2 (fun id _ => assignGeneratorFn id .mixed 7) fun _ => 43 :=
  (loops_complete_iff true (by decide) (by decide) .mixed (fun _ _ => 7) fun _ => 43).mpr
    ⟨by decide, fun _ => .inl le_rfl⟩

/-- The program with `-r -n 8`: it reports after the second value, for which it divides by
`8 >> 4`. -/
theorem eight_divides_by_zero :
    generatorMain true 8 (fun _ => assignGeneratorFn 0 .constant 0) = .error .divisionByZero ∧
      ¬ Completes true 8 1 (fun id _ => assignGeneratorFn id .constant 0) fun _ => 43 := by
  have hgenerator : generatorMain true 8 (fun _ => assignGeneratorFn 0 .constant 0) =
      .error .divisionByZero := rfl
  refine ⟨hgenerator, fun ⟨hcomplete, _⟩ => ?_⟩
  obtain ⟨my, hloop, -⟩ := hcomplete 0 one_pos
  rw [hgenerator] at hloop
  cases hloop

end OperatingSystem.RingLoops
