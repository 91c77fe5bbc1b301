import OperatingSystem.RingCounts
import OperatingSystem.MutexProgress
import Mathlib.Algebra.BigOperators.Fin
import Mathlib.Algebra.Order.BigOperators.Group.Finset
import Mathlib.Data.Fintype.Option

/-!
# The ring buffer cannot deadlock

Generators that enqueue `K` values each, and a counter that dequeues all of them. If no
thread could go on, all unfinished threads would be on the queues of mutexes that have no
permit left. Nobody holds `mutex` then, a full buffer lets the counter go on and an empty
one the generators.
-/

namespace OperatingSystem.Ring

open Locks (Call Pc)

section Progress

variable {T : Type*} [DecidableEq T] {r next : Ringbuffer T} {t : T} {n : Nat}
  {memory : Nat → Int} {guard : Ringbuffer T → T → Operation → Prop}

theorem resume_isSome (hcall : (r.stage t).call ≠ none) : ∃ next, r.resume t = some next := by
  unfold Ringbuffer.resume
  cases hstage : r.stage t with
  | idle => simp [hstage, Stage.call] at hcall
  | enqueue v line => cases line <;> simp [hstage, Stage.call] at hcall ⊢
  | dequeue line => cases line <;> simp [hstage, Stage.call] at hcall ⊢

theorem run_isSome (hidle : r.stage t ≠ .idle) : ∃ next, r.run t = some next := by
  unfold Ringbuffer.run
  cases hstage : r.stage t with
  | idle => exact absurd hstage hidle
  | enqueue v line => cases line <;> exact ⟨_, rfl⟩
  | dequeue line => cases line <;> exact ⟨_, rfl⟩

/-- A thread that is in a call of the buffer and does not sleep can take a step. -/
theorem step_isSome (hreach : (machine n memory guard).Reachable r) (hidle : r.stage t ≠ .idle)
    (hawake : ¬ r.locks.Sleeps t) : ∃ next, r.step t = some next := by
  have hlocks := reachable_locks hreach
  obtain ⟨situation, _, hmasked⟩ := Locks.reachable_placed hlocks
  rw [Ringbuffer.step, if_neg (by simp [hmasked.alive])]
  by_cases hpc : r.locks.pc t = .outside
  · rw [if_pos hpc]
    exact run_isSome hidle
  · rw [if_neg hpc]
    obtain ⟨locks, hstep⟩ := Locks.step_isSome hlocks hpc hawake
    rw [hstep]
    by_cases hafter : locks.pc t = .outside
    · simp only [if_pos hafter]
      apply resume_isSome
      intro hcall
      exact hpc ((reachable_aligned hreach).outside hcall)
    · simp only [if_neg hafter]
      exact ⟨_, rfl⟩

theorem length_eq_sum [Fintype T] (entries : List (T × Int)) :
    entries.length = ∑ t, timesOf entries t := by
  have hsum := Multiset.sum_count_eq_card (s := Finset.univ)
    (m := (entries.map Prod.fst : Multiset T)) fun t _ => Finset.mem_univ t
  simpa [timesOf] using hsum.symm

/-- A thread that acquires something has not got to its access. -/
theorem Stage.before_access {stage : Stage}
    (hacquires : stage = .idle ∨ ∃ m, stage.call = some (.acquire m)) :
    stage.enqueueFrom 2 + stage.dequeueFrom 2 = 0 := by
  rcases hacquires with rfl | ⟨m, hcall⟩
  · rfl
  · cases stage with
    | idle => rfl
    | enqueue v line =>
        cases line <;> simp [Stage.call] at hcall <;>
          simp [Stage.enqueueFrom, Stage.dequeueFrom, EnqueuePc.position]
    | dequeue line =>
        cases line <;> simp [Stage.call] at hcall <;>
          simp [Stage.enqueueFrom, Stage.dequeueFrom, DequeuePc.position]

theorem Stage.before_mutex {stage : Stage}
    (hacquires : stage = .idle ∨ ∃ m, m ≠ .mutex ∧ stage.call = some (.acquire m)) :
    stage.enqueueFrom 1 = 0 ∧ stage.dequeueFrom 1 = 0 := by
  rcases hacquires with rfl | ⟨m, hm, hcall⟩
  · exact ⟨rfl, rfl⟩
  · cases stage with
    | idle => exact ⟨rfl, rfl⟩
    | enqueue v line =>
        cases line <;> simp [Stage.call] at hcall <;>
          simp_all [Stage.enqueueFrom, Stage.dequeueFrom, EnqueuePc.position]
    | dequeue line =>
        cases line <;> simp [Stage.call] at hcall <;>
          simp_all [Stage.enqueueFrom, Stage.dequeueFrom, DequeuePc.position]

/-- Only `enqueue_into_ringbuffer` acquires `sema`. -/
theorem Stage.enqueue_of_acquire {stage : Stage} (hcall : stage.call = some (.acquire .sema)) :
    ∃ v line, stage = .enqueue v line := by
  cases stage with
  | idle => cases hcall
  | enqueue v line => exact ⟨v, line, rfl⟩
  | dequeue line => cases line <;> simp [Stage.call] at hcall

/-- Only `dequeue_from_ringbuffer` acquires `empty`. -/
theorem Stage.dequeue_of_acquire {stage : Stage} (hcall : stage.call = some (.acquire .empty)) :
    ∃ line, stage = .dequeue line := by
  cases stage with
  | idle => cases hcall
  | enqueue v line => cases line <;> simp [Stage.call] at hcall
  | dequeue line => exact ⟨line, rfl⟩

end Progress

/-! ## Generators and a counter -/

/-- `some g` is a generator and `none` is the counter. -/
abbrev Thread (G : Nat) := Option (Fin G)

/-- The number of calls in `generator_main` and in `counter_main`. -/
def quota (G K : Nat) : Thread G → Nat
  | some _ => K
  | none => G * K

def Ringbuffer.calls {T : Type*} [DecidableEq T] (r : Ringbuffer T) (t : T) : Nat :=
  timesOf r.enqueued t + timesOf r.dequeued t

variable {G K n : Nat} {memory : Nat → Int} {r next : Ringbuffer (Thread G)} {t : Thread G}

/-- `t` has calls left to finish. -/
def Ringbuffer.Unfinished (r : Ringbuffer (Thread G)) (K : Nat) (t : Thread G) : Prop :=
  r.calls t < quota G K t

/-- The generators enqueue and the counter dequeues. -/
def Operation.Fits (op : Operation) (t : Thread G) : Prop :=
  match t, op with
  | some _, .enqueue _ => True
  | none, .dequeue => True
  | _, _ => False

/-- The calls that `generator_main` and `counter_main` make. -/
def mains (G K : Nat) (r : Ringbuffer (Thread G)) (t : Thread G) (op : Operation) : Prop :=
  op.Fits t ∧ r.Unfinished K t

instance (op : Operation) (t : Thread G) : Decidable (op.Fits t) := by
  unfold Operation.Fits
  split <;> infer_instance

instance (r : Ringbuffer (Thread G)) (t : Thread G) : Decidable (r.Unfinished K t) := by
  unfold Ringbuffer.Unfinished
  infer_instance

instance (r : Ringbuffer (Thread G)) (t : Thread G) (op : Operation) :
    Decidable (mains G K r t op) := by
  unfold mains
  infer_instance

/-- A thread is in a call of its own loop. -/
structure Ringbuffer.Employed (r : Ringbuffer (Thread G)) (K : Nat) (t : Thread G) : Prop where
  le : r.calls t ≤ quota G K t
  busy : r.stage t ≠ .idle → r.Unfinished K t
  generator : ∀ g, t = some g → timesOf r.dequeued t = 0 ∧ ∀ line, r.stage t ≠ .dequeue line
  counter : t = none → timesOf r.enqueued t = 0 ∧ ∀ v line, r.stage t ≠ .enqueue v line

theorem Effect.employed_self (heffect : Effect r t next) (hemployed : r.Employed K t)
    (hbegin : ∀ op, r.stage t = .idle → next = r.goto t op.entry → mains G K r t op) :
    next.Employed K t := by
  obtain ⟨hle, hbusy, hgenerator, hcounter⟩ := hemployed
  cases heffect
  case begin op hstage =>
    obtain ⟨hfits, hunfinished⟩ := hbegin op hstage rfl
    refine ⟨hle, fun _ => hunfinished, ?_, ?_⟩
    · rintro g rfl
      cases op with
      | enqueue v => exact ⟨(hgenerator g rfl).1, by simp [Operation.entry]⟩
      | dequeue => exact absurd hfits id
    · rintro rfl
      cases op with
      | enqueue v => exact absurd hfits id
      | dequeue => exact ⟨(hcounter rfl).1, by simp [Operation.entry]⟩
  case call | inside => exact ⟨hle, hbusy, hgenerator, hcounter⟩
  case enqueueDone v hstage hpc =>
    have hlt : r.calls t < quota G K t := hbusy (by simp [hstage])
    refine ⟨?_, fun hidle => absurd (by simp) hidle, ?_, ?_⟩
    · simp only [Ringbuffer.calls, Ringbuffer.goto_enqueued, Ringbuffer.goto_dequeued,
        Ringbuffer.finishEnqueue_enqueued, Ringbuffer.finishEnqueue_dequeued,
        Ringbuffer.setLocks_enqueued, Ringbuffer.setLocks_dequeued, timesOf_append] at hlt ⊢
      simp only [if_true]
      omega
    · intro g hg
      exact ⟨(hgenerator g hg).1, by simp⟩
    · intro hnone
      exact absurd hstage ((hcounter hnone).2 _ _)
  case dequeueDone v hstage hpc =>
    have hlt : r.calls t < quota G K t := hbusy (by simp [hstage])
    refine ⟨?_, fun hidle => absurd (by simp) hidle, ?_, ?_⟩
    · simp only [Ringbuffer.calls, Ringbuffer.goto_enqueued, Ringbuffer.goto_dequeued,
        Ringbuffer.finishDequeue_enqueued, Ringbuffer.finishDequeue_dequeued,
        Ringbuffer.setLocks_enqueued, Ringbuffer.setLocks_dequeued, timesOf_append] at hlt ⊢
      simp only [if_true]
      omega
    · intro g hg
      exact absurd hstage ((hgenerator g hg).2 _)
    · intro hnone
      exact ⟨(hcounter hnone).1, by simp⟩
  -- the thread stays in its call
  all_goals
    refine ⟨hle, fun _ => hbusy (by simp [*]), ?_, ?_⟩
    · intro g hg
      have hbefore := hgenerator g hg
      simp_all
    · intro hnone
      have hbefore := hcounter hnone
      simp_all

theorem Effect.employed (heffect : Effect r t next) {u : Thread G} (hemployed : r.Employed K u)
    (hbegin : ∀ op, r.stage t = .idle → next = r.goto t op.entry → mains G K r t op) :
    next.Employed K u := by
  by_cases hu : u = t
  · subst hu
    exact heffect.employed_self hemployed hbegin
  · have hstage := heffect.stage_of_ne hu
    have henqueued : timesOf next.enqueued u = timesOf r.enqueued u := by
      cases heffect <;> simp [Ne.symm hu]
    have hdequeued : timesOf next.dequeued u = timesOf r.dequeued u := by
      cases heffect <;> simp [Ne.symm hu]
    have hcalls : next.calls u = r.calls u := by
      rw [Ringbuffer.calls, henqueued, hdequeued, Ringbuffer.calls]
    constructor
    · rw [hcalls]
      exact hemployed.le
    · rw [hstage, Ringbuffer.Unfinished, hcalls]
      exact hemployed.busy
    · rw [hstage, hdequeued]
      exact hemployed.generator
    · rw [hstage, henqueued]
      exact hemployed.counter

theorem Operation.entry_injective : Function.Injective Operation.entry := by
  intro op op' hentry
  cases op <;> cases op' <;> simp_all [Operation.entry]

theorem step_idle (haligned : r.Aligned) (hidle : r.stage t = .idle) : r.step t = none := by
  have hpc : r.locks.pc t = .outside := haligned.outside (by rw [hidle]; rfl)
  rw [Ringbuffer.step, if_pos hpc, Ringbuffer.run, hidle]
  split <;> rfl

theorem reachable_employed (hreach : (machine n memory (mains G K)).Reachable r)
    (t : Thread G) : r.Employed K t := by
  apply hreach.invariant fun r => r.Employed K t
  · refine ⟨?_, fun hidle => absurd rfl hidle, fun g hg => ⟨rfl, nofun⟩, fun hnone => ⟨rfl, nofun⟩⟩
    simp [machine, initRingbuffer, Ringbuffer.calls, timesOf]
  · intro r label next hreach hemployed hstep
    refine (reachable_effect hreach hstep).employed hemployed ?_
    intro op hidle hnext
    obtain ⟨hallowed, hact⟩ := hstep
    cases label with
    | call u op' =>
        simp only [Ringbuffer.act, Option.ite_none_right_eq_some] at hact
        obtain ⟨_, heq⟩ := hact
        cases heq
        have hentry := congrFun (congrArg Ringbuffer.stage hnext) u
        simp only [Label.thread, Ringbuffer.goto_stage, Function.update_self] at hentry
        obtain rfl := Operation.entry_injective hentry
        exact hallowed
    | step u =>
        have hnone := step_idle (t := u) (reachable_aligned hreach) hidle
        rw [Ringbuffer.act, hnone] at hact
        cases hact

/-! ## A deadlock -/

/-- No unfinished thread can take a step, but for compare-and-swaps that fail. -/
def Deadlock (n : Nat) (memory : Nat → Int) (K : Nat) (r : Ringbuffer (Thread G)) : Prop :=
  ∀ t, r.Unfinished K t → ∀ label next, label.thread = t →
    (machine n memory (mains G K)).step r label next → r.locks.Spins t

section Deadlock

variable (hreach : (machine n memory (mains G K)).Reachable r)
  (hdeadlock : Deadlock n memory K r)

include hreach hdeadlock

theorem deadlock_stuck (t : Thread G) : r.locks.Stuck t := by
  by_cases hpc : r.locks.pc t = .outside
  · exact .inl hpc
  · right
    by_cases hsleeps : r.locks.Sleeps t
    · exact .inr hsleeps
    · left
      have hidle : r.stage t ≠ .idle := by
        intro hidle
        exact hpc ((reachable_aligned hreach).outside (by rw [hidle]; rfl))
      obtain ⟨next, hstep⟩ := step_isSome hreach hidle hsleeps
      exact hdeadlock t ((reachable_employed hreach t).busy hidle) (.step t) next rfl
        ⟨trivial, hstep⟩

theorem deadlock_inside (hunfinished : r.Unfinished K t) : r.locks.pc t ≠ .outside := by
  intro hpc
  have hspins : ¬ r.locks.Spins t := by
    rintro ⟨m, hcas | hcas, _⟩
    · simp [hpc] at hcas
    · simp [hpc] at hcas
  apply hspins
  by_cases hidle : r.stage t = .idle
  · obtain ⟨op, hfits⟩ : ∃ op : Operation, op.Fits t := by
      cases t with
      | some g => exact ⟨.enqueue 0, trivial⟩
      | none => exact ⟨.dequeue, trivial⟩
    obtain ⟨situation, _, hmasked⟩ := Locks.reachable_placed (reachable_locks hreach)
    refine hdeadlock t hunfinished (.call t op) (r.goto t op.entry) rfl
      ⟨⟨hfits, hunfinished⟩, if_pos ⟨hmasked.alive, hidle⟩⟩
  · have hawake : ¬ r.locks.Sleeps t := by
      rintro ⟨⟨m, hsleeps⟩, _⟩
      simp [hpc] at hsleeps
    obtain ⟨next, hstep⟩ := step_isSome hreach hidle hawake
    exact hdeadlock t hunfinished (.step t) next rfl ⟨trivial, hstep⟩

/-- Whoever is in a call waits on the queue of the mutex that he acquires. -/
theorem deadlock_waits (t : Thread G) : r.stage t = .idle ∨
    ∃ m, (r.stage t).call = some (.acquire m) ∧ t ∈ (r.locks.mutex m).queue := by
  by_cases hidle : r.stage t = .idle
  · exact .inl hidle
  · right
    have hinside := deadlock_inside hreach hdeadlock ((reachable_employed hreach t).busy hidle)
    obtain ⟨m, hpc, hqueue⟩ :=
      Locks.stuck_queued (reachable_locks hreach) (deadlock_stuck hreach hdeadlock) hinside
    refine ⟨m, reachable_aligned hreach t _ ?_, hqueue⟩
    rw [hpc]
    rfl

theorem deadlock_credit (m : Sem) (t : Thread G) : r.locks.credit m t = 0 := by
  apply (reachable_aligned hreach).credit_eq_zero
  rcases deadlock_waits hreach hdeadlock t with hidle | ⟨m', hcall, _⟩
  · simp [hidle, Stage.call]
  · simp [hcall]

/-- Everybody who acquired `mutex` has released it, so nobody waits for it. -/
theorem deadlock_mutex (t : Thread G) : t ∉ (r.locks.mutex .mutex).queue := by
  intro hqueue
  have hlocks := reachable_locks hreach
  have hstuck := deadlock_stuck hreach hdeadlock
  have hpermits := Locks.stuck_permits hlocks hstuck hqueue
  have hsame : (r.locks.history .mutex).incremented.length =
      (r.locks.history .mutex).granted.length := by
    apply length_eq_of_count_eq
    intro u
    have hgranted := Locks.stuck_granted hlocks hstuck .mutex u
    have hreturned := (reachable_balanced hreach u).returned_mutex
    have hincremented := (reachable_balanced hreach u).incremented_mutex
    have hcredit := deadlock_credit hreach hdeadlock .mutex u
    have hmutex := (reachable_aligned hreach).credit_mutex u
    have hwaits : (r.stage u).enqueueFrom 2 + (r.stage u).dequeueFrom 2 = 0 := by
      apply Stage.before_access
      rcases deadlock_waits hreach hdeadlock u with hidle | ⟨m, hcall, _⟩
      · exact .inl hidle
      · exact .inr ⟨m, hcall⟩
    simp only [Ringbuffer.returned, Ringbuffer.incremented] at hreturned hincremented
    omega
  simp only [permits] at hpermits
  omega

theorem deadlock_first (t : Thread G) :
    (r.stage t).enqueueFrom 1 = 0 ∧ (r.stage t).dequeueFrom 1 = 0 := by
  apply Stage.before_mutex
  rcases deadlock_waits hreach hdeadlock t with hidle | ⟨m, hcall, hqueue⟩
  · exact .inl hidle
  · refine .inr ⟨m, ?_, hcall⟩
    rintro rfl
    exact deadlock_mutex hreach hdeadlock t hqueue

/-- If somebody waits for `m` and every call that acquires or releases it has been finished, its
permits are used up. -/
theorem deadlock_length {m : Sem} {acquires releases : List (Thread G × Int)}
    (hqueue : t ∈ (r.locks.mutex m).queue)
    (hacquires : ∀ u, timesOf acquires u = r.returned u m)
    (hreleases : ∀ u, timesOf releases u = r.incremented u m) :
    acquires.length = permits n m + releases.length := by
  have hlocks := reachable_locks hreach
  have hstuck := deadlock_stuck hreach hdeadlock
  have hpermits := Locks.stuck_permits hlocks hstuck hqueue
  have hgranted : (acquires.map Prod.fst).length = (r.locks.history m).granted.length := by
    apply length_eq_of_count_eq
    intro u
    rw [Locks.stuck_granted hlocks hstuck m u]
    exact hacquires u
  have hincremented : (releases.map Prod.fst).length =
      (r.locks.history m).incremented.length :=
    length_eq_of_count_eq hreleases
  simp only [List.length_map] at *
  omega

/-- Who waits for a slot finds the buffer full. -/
theorem deadlock_sema (hqueue : t ∈ (r.locks.mutex .sema).queue) :
    r.enqueued.length = n + r.dequeued.length := by
  apply deadlock_length hreach hdeadlock hqueue
  · intro u
    have hreturned := (reachable_balanced hreach u).returned_sema
    rw [(deadlock_first hreach hdeadlock u).1] at hreturned
    exact hreturned.symm
  · intro u
    have hincremented := (reachable_balanced hreach u).incremented_sema
    rw [deadlock_credit hreach hdeadlock] at hincremented
    exact hincremented.symm

/-- Who waits for an entry finds the buffer empty. -/
theorem deadlock_empty (hqueue : t ∈ (r.locks.mutex .empty).queue) :
    r.dequeued.length = r.enqueued.length := by
  have hlength : r.dequeued.length = permits n .empty + r.enqueued.length := by
    apply deadlock_length hreach hdeadlock hqueue
    · intro u
      have hreturned := (reachable_balanced hreach u).returned_empty
      rw [(deadlock_first hreach hdeadlock u).2] at hreturned
      exact hreturned.symm
    · intro u
      have hincremented := (reachable_balanced hreach u).incremented_empty
      rw [deadlock_credit hreach hdeadlock] at hincremented
      exact hincremented.symm
  simpa [permits] using hlength

/-- An unfinished thread waits for a slot or for an entry. -/
theorem deadlock_unfinished (hunfinished : r.Unfinished K t) :
    ∃ m, m ≠ .mutex ∧ (r.stage t).call = some (.acquire m) ∧
      t ∈ (r.locks.mutex m).queue := by
  rcases deadlock_waits hreach hdeadlock t with hidle | ⟨m, hcall, hqueue⟩
  · have hinside := deadlock_inside hreach hdeadlock hunfinished
    exact absurd ((reachable_aligned hreach).outside (by rw [hidle]; rfl)) hinside
  · refine ⟨m, ?_, hcall, hqueue⟩
    rintro rfl
    exact deadlock_mutex hreach hdeadlock t hqueue

theorem deadlock_generator {g : Fin G} (hunfinished : r.Unfinished K (some g)) :
    r.enqueued.length = n + r.dequeued.length := by
  obtain ⟨m, hm, hcall, hqueue⟩ := deadlock_unfinished hreach hdeadlock hunfinished
  have hgenerator := ((reachable_employed hreach (some g)).generator g rfl).2
  cases m with
  | mutex => exact absurd rfl hm
  | sema => exact deadlock_sema hreach hdeadlock hqueue
  | empty =>
      obtain ⟨line, hstage⟩ := Stage.dequeue_of_acquire hcall
      exact absurd hstage (hgenerator line)

theorem deadlock_counter (hunfinished : r.Unfinished K none) :
    r.dequeued.length = r.enqueued.length := by
  obtain ⟨m, hm, hcall, hqueue⟩ := deadlock_unfinished hreach hdeadlock hunfinished
  have hcounter := ((reachable_employed hreach none).counter rfl).2
  cases m with
  | mutex => exact absurd rfl hm
  | empty => exact deadlock_empty hreach hdeadlock hqueue
  | sema =>
      obtain ⟨v, line, hstage⟩ := Stage.enqueue_of_acquire hcall
      exact absurd hstage (hcounter v line)

end Deadlock

/-! ## The calls of all threads -/

theorem enqueued_length (hreach : (machine n memory (mains G K)).Reachable r) :
    r.enqueued.length = ∑ g : Fin G, r.calls (some g) := by
  have hcounter := ((reachable_employed hreach none).counter rfl).1
  rw [length_eq_sum, Fintype.sum_option, hcounter, Nat.zero_add]
  apply Finset.sum_congr rfl
  intro g _
  have hgenerator := ((reachable_employed hreach (some g)).generator g rfl).1
  rw [Ringbuffer.calls, hgenerator, Nat.add_zero]

theorem dequeued_length (hreach : (machine n memory (mains G K)).Reachable r) :
    r.dequeued.length = r.calls none := by
  have hcounter := ((reachable_employed hreach none).counter rfl).1
  have hgenerators : ∑ g : Fin G, timesOf r.dequeued (some g) = 0 := by
    apply Finset.sum_eq_zero
    intro g _
    exact ((reachable_employed hreach (some g)).generator g rfl).1
  rw [length_eq_sum, Fintype.sum_option, hgenerators, Ringbuffer.calls, hcounter]
  omega

/-- If nobody who is unfinished could go on, everybody would have finished. -/
theorem deadlock_finished (hn : 1 ≤ n) (hreach : (machine n memory (mains G K)).Reachable r)
    (hdeadlock : Deadlock n memory K r) (t : Thread G) : ¬ r.Unfinished K t := by
  have henqueued := enqueued_length hreach
  have hdequeued := dequeued_length hreach
  have hall : r.enqueued.length ≤ G * K := by
    rw [henqueued]
    simpa using Finset.sum_le_card_nsmul Finset.univ (fun g => r.calls (some g)) K
      fun g _ => (reachable_employed hreach (some g)).le
  have hcounter : ¬ r.Unfinished K none := by
    intro hunfinished
    -- the buffer is empty, so no generator waits, and all have finished
    have hempty := deadlock_counter hreach hdeadlock hunfinished
    have hfinished : ∀ g, r.calls (some g) = K := by
      intro g
      have hle := (reachable_employed hreach (some g)).le
      by_contra hne
      have hlt : r.Unfinished K (some g) := lt_of_le_of_ne hle hne
      have hfull := deadlock_generator hreach hdeadlock hlt
      omega
    have hlength : r.enqueued.length = G * K := by
      rw [henqueued, Finset.sum_congr rfl fun g _ => hfinished g]
      simp
    have hlt : r.calls none < G * K := hunfinished
    omega
  intro hunfinished
  cases t with
  | none => exact hcounter hunfinished
  | some g =>
      -- the counter has finished, but the buffer is full
      have hfull := deadlock_generator hreach hdeadlock hunfinished
      have hge : G * K ≤ r.calls none := Nat.not_lt.mp hcounter
      omega

/-- As long as a thread has calls left to finish, one of those that have can take a step that
is not a compare-and-swap that fails. -/
theorem no_deadlock (hn : 1 ≤ n) (hreach : (machine n memory (mains G K)).Reachable r)
    (hunfinished : ∃ t, r.Unfinished K t) :
    ∃ t, r.Unfinished K t ∧ ∃ label next, label.thread = t ∧
      (machine n memory (mains G K)).step r label next ∧ ¬ r.locks.Spins t := by
  by_contra hnone
  have hdeadlock : Deadlock n memory K r := by
    intro t ht label next hlabel hstep
    by_contra hspins
    exact hnone ⟨t, ht, label, next, hlabel, hstep, hspins⟩
  obtain ⟨t, ht⟩ := hunfinished
  exact deadlock_finished hn hreach hdeadlock t ht

/-- One generator and the counter, which waits for the first entry. -/
def waiting : List (Label (Thread 1)) :=
  .call none .dequeue :: List.replicate 8 (.step none)

def waited : Ringbuffer (Thread 1) :=
  (waiting.foldlM (Ringbuffer.play (mains 1 1)) (initRingbuffer 1 fun _ => 0)).get
    (by decide +kernel)

theorem waited_reachable : (machine 1 (fun _ => 0) (mains 1 1)).Reachable waited :=
  Machine.reachable_foldlM (fun _ _ _ => play_step) Machine.reachable_init
    (Option.some_get _).symm

theorem no_deadlock_waited : waited.locks.pc none = .acquire .empty .sigwaitinfo ∧
    waited.locks.pending none = false ∧
    ∃ t, waited.Unfinished 1 t ∧ ∃ label next, label.thread = t ∧
      (machine 1 (fun _ => 0) (mains 1 1)).step waited label next ∧ ¬ waited.locks.Spins t := by
  refine ⟨by decide +kernel, by decide +kernel, ?_⟩
  exact no_deadlock le_rfl waited_reachable ⟨none, by decide +kernel⟩

end OperatingSystem.Ring
