import OperatingSystem.RingEffect
import OperatingSystem.MutexOrder

/-!
# How often a thread acquired, accessed and released

For each thread, the numbers of its returned acquisitions, its accesses to the slots and
its `S++` steps follow from the calls that it has finished and from the statement that it
is at. With the semaphores this bounds the number of entries in the buffer, and lets one
thread at a time access it.
-/

namespace OperatingSystem.Locks

variable {T M : Type*} [DecidableEq T] [DecidableEq M]

/-- The mutex that a releaser has incremented in the call that it is in. -/
def Pc.incremented : Pc T M → Option M
  | .outside => none
  | .acquire _ _ => none
  | .release m line =>
      match line with
      | .cas | .load | .store _ => none
      | _ => some m

variable {s next : State T M} {t u : T} {m : M}

def State.credit (s : State T M) (m : M) (t : T) : Nat :=
  if (s.pc t).incremented = some m then 1 else 0

omit [DecidableEq T] in
theorem State.credit_le_one : s.credit m t ≤ 1 := by
  unfold State.credit
  split <;> omega

omit [DecidableEq T] [DecidableEq M] in
theorem Pc.within_of_incremented {pc : Pc T M} (hincremented : pc.incremented = some m) :
    pc.within = some (.release m) := by
  cases pc with
  | outside => cases hincremented
  | acquire m' line => cases hincremented
  | release m' line =>
      cases line <;> simp [Pc.incremented] at hincremented <;> rw [hincremented] <;> rfl

/-- A thread gets the credit of an `S++` for the rest of its call. -/
theorem Effect.credit (heffect : Effect s t next) (hbefore : s.pc t ≠ .outside)
    (hafter : next.pc t ≠ .outside) :
    (next.history m).incremented.count u + s.credit m u =
      (s.history m).incremented.count u + next.credit m u := by
  cases heffect
  case spin => rfl
  case call c hpc => exact absurd hpc hbefore
  case releaseStore m' S hpc =>
    by_cases hm : m = m'
    · subst hm
      by_cases hu : u = t
      · subst hu
        simp [State.credit, hpc, Pc.incremented]
      · simp [State.credit, hu, Ne.symm hu]
    · by_cases hu : u = t
      · subst hu
        simp [State.credit, hpc, Pc.incremented, hm, Ne.symm hm]
      · simp [State.credit, hu, hm]
  all_goals
    by_cases hu : u = t
    · subst hu
      simp_all [State.credit, Pc.incremented]
    · simp [State.credit, hu]

/-- An acquisition counts as returned when it has returned. -/
theorem Effect.returned_eq (heffect : Effect s t next) (hafter : next.pc t ≠ .outside) :
    (next.history m).returned = (s.history m).returned := by
  cases heffect
  case acquireDone m' hpc => simp at hafter
  all_goals simp

end OperatingSystem.Locks

namespace OperatingSystem.Ring

open Locks (Call Pc)

variable {T : Type*} [DecidableEq T]

def EnqueuePc.position : EnqueuePc → Nat
  | .acquireSema => 0
  | .acquireMutex => 1
  | .loadIn => 2
  | .storeSlot _ => 3
  | .loadNext => 4
  | .loadN _ => 5
  | .storeIn _ _ => 6
  | .releaseMutex => 7
  | .releaseEmpty => 8

def DequeuePc.position : DequeuePc → Nat
  | .acquireEmpty => 0
  | .acquireMutex => 1
  | .loadOut => 2
  | .loadSlot _ => 3
  | .loadNext _ => 4
  | .loadN _ _ => 5
  | .storeOut _ _ _ => 6
  | .releaseMutex _ => 7
  | .releaseSema _ => 8

namespace Stage

/-- 1 if the thread is at the given statement of `enqueue_into_ringbuffer` or past it. -/
def enqueueFrom (position : Nat) : Stage → Nat
  | .enqueue _ line => if position ≤ line.position then 1 else 0
  | _ => 0

def dequeueFrom (position : Nat) : Stage → Nat
  | .dequeue line => if position ≤ line.position then 1 else 0
  | _ => 0

end Stage

/-- How often a thread occurs in a list of accesses or calls. -/
def timesOf (entries : List (T × Int)) (t : T) : Nat := (entries.map Prod.fst).count t

@[simp] theorem timesOf_append (entries : List (T × Int)) (t u : T) (v : Int) :
    timesOf (entries ++ [(u, v)]) t = timesOf entries t + if u = t then 1 else 0 := by
  simp [timesOf, List.count_singleton]

namespace Ringbuffer

variable (r : Ringbuffer T) (t : T)

def returned (m : Sem) : Nat := (r.locks.history m).returned.count t

def incremented (m : Sem) : Nat := (r.locks.history m).incremented.count t

/-- The counts of a thread, by the calls that it has finished and its statement. -/
structure Balanced : Prop where
  returned_sema : r.returned t .sema = timesOf r.enqueued t + (r.stage t).enqueueFrom 1
  returned_empty : r.returned t .empty = timesOf r.dequeued t + (r.stage t).dequeueFrom 1
  returned_mutex : r.returned t .mutex = timesOf r.enqueued t + timesOf r.dequeued t +
    (r.stage t).enqueueFrom 2 + (r.stage t).dequeueFrom 2
  written : timesOf r.written t = timesOf r.enqueued t + (r.stage t).enqueueFrom 4
  read : timesOf r.read t = timesOf r.dequeued t + (r.stage t).dequeueFrom 4
  incremented_mutex : r.incremented t .mutex = timesOf r.enqueued t + timesOf r.dequeued t +
    (r.stage t).enqueueFrom 8 + (r.stage t).dequeueFrom 8 + r.locks.credit .mutex t
  incremented_empty : r.incremented t .empty = timesOf r.enqueued t + r.locks.credit .empty t
  incremented_sema : r.incremented t .sema = timesOf r.dequeued t + r.locks.credit .sema t

end Ringbuffer

variable {r next : Ringbuffer T} {t u : T}

/-- The statements at which the counts of a thread change. -/
def Stage.SameCounts (stage next : Stage) : Prop :=
  ∀ position ∈ [1, 2, 4, 8], next.enqueueFrom position = stage.enqueueFrom position ∧
    next.dequeueFrom position = stage.dequeueFrom position

/-- The counts stay as they are, but for the credit of an `S++`. -/
structure Ringbuffer.SameCounts (r next : Ringbuffer T) (t : T) : Prop where
  returned : ∀ m, next.returned t m = r.returned t m
  incremented : ∀ m, next.incremented t m + r.locks.credit m t =
    r.incremented t m + next.locks.credit m t
  enqueued : timesOf next.enqueued t = timesOf r.enqueued t
  dequeued : timesOf next.dequeued t = timesOf r.dequeued t
  written : timesOf next.written t = timesOf r.written t
  read : timesOf next.read t = timesOf r.read t
  stage : (r.stage t).SameCounts (next.stage t)

theorem Ringbuffer.Balanced.of_same (hbalanced : r.Balanced u) (hsame : r.SameCounts next u) :
    next.Balanced u := by
  obtain ⟨henq1, hdeq1⟩ := hsame.stage 1 (by simp)
  obtain ⟨henq2, hdeq2⟩ := hsame.stage 2 (by simp)
  obtain ⟨henq4, hdeq4⟩ := hsame.stage 4 (by simp)
  obtain ⟨henq8, hdeq8⟩ := hsame.stage 8 (by simp)
  have hmutex := hsame.incremented .mutex
  have hempty := hsame.incremented .empty
  have hsema := hsame.incremented .sema
  constructor
  · rw [hsame.returned, hsame.enqueued, henq1, hbalanced.returned_sema]
  · rw [hsame.returned, hsame.dequeued, hdeq1, hbalanced.returned_empty]
  · rw [hsame.returned, hsame.enqueued, hsame.dequeued, henq2, hdeq2, hbalanced.returned_mutex]
  · rw [hsame.written, hsame.enqueued, henq4, hbalanced.written]
  · rw [hsame.read, hsame.dequeued, hdeq4, hbalanced.read]
  · rw [hsame.enqueued, hsame.dequeued, henq8, hdeq8]
    have hbefore := hbalanced.incremented_mutex
    omega
  · rw [hsame.enqueued]
    have hbefore := hbalanced.incremented_empty
    omega
  · rw [hsame.dequeued]
    have hbefore := hbalanced.incremented_sema
    omega

/-- A step of `t` leaves the counts of the others. -/
theorem Effect.sameCounts (heffect : Effect r t next) (hu : u ≠ t) : r.SameCounts next u := by
  have hstage : (r.stage u).SameCounts (next.stage u) := by
    rw [heffect.stage_of_ne hu]
    exact fun _ _ => ⟨rfl, rfl⟩
  cases heffect
  case inside locks heffect hbefore hafter =>
    exact ⟨fun m => congrArg (List.count u) (heffect.returned_eq hafter),
      fun m => heffect.credit hbefore hafter, rfl, rfl, rfl, rfl, hstage⟩
  all_goals
    refine ⟨fun m => ?_, fun m => ?_, ?_, ?_, ?_, ?_, hstage⟩
    · cases m <;> simp [Ringbuffer.returned, Ne.symm hu]
    · simp [Ringbuffer.incremented, Locks.State.credit, hu]
    · simp [Ne.symm hu]
    · simp [Ne.symm hu]
    · simp [Ne.symm hu]
    · simp [Ne.symm hu]

/-- Of its own counts `t` changes none, but when it returns from a call of a mutex or
accesses a slot. -/
theorem Effect.balanced_self (heffect : Effect r t next) (hbalanced : r.Balanced t) :
    next.Balanced t := by
  cases heffect
  case inside locks heffect hbefore hafter =>
    exact hbalanced.of_same ⟨fun m => congrArg (List.count t) (heffect.returned_eq hafter),
      fun m => heffect.credit hbefore hafter, rfl, rfl, rfl, rfl, fun _ _ => ⟨rfl, rfl⟩⟩
  case call c hpc hcall =>
    refine hbalanced.of_same ⟨fun _ => rfl, fun m => ?_, rfl, rfl, rfl, rfl,
      fun _ _ => ⟨rfl, rfl⟩⟩
    cases c <;>
      simp [Ringbuffer.incremented, Locks.State.credit, hpc, Call.entry, Pc.incremented]
  case begin op hstage =>
    refine hbalanced.of_same ⟨fun _ => rfl, fun _ => rfl, rfl, rfl, rfl, rfl, ?_⟩
    cases op <;> simp [Stage.SameCounts, hstage, Operation.entry, Stage.enqueueFrom,
      Stage.dequeueFrom, EnqueuePc.position, DequeuePc.position]
  case loadIn | loadNextIn | loadNIn | storeIn | loadOut | loadNextOut | loadNOut | storeOut =>
    refine hbalanced.of_same ⟨fun _ => rfl, fun _ => rfl, rfl, rfl, rfl, rfl, ?_⟩
    simp [Stage.SameCounts, *, Stage.enqueueFrom, Stage.dequeueFrom, EnqueuePc.position,
      DequeuePc.position]
  case storeSlot | loadSlot =>
    obtain ⟨h1, h2, h3, h4, h5, h6, h7, h8⟩ := hbalanced
    simp only [*, Stage.enqueueFrom, Stage.dequeueFrom, EnqueuePc.position,
      DequeuePc.position] at h1 h2 h3 h4 h5 h6 h7 h8
    constructor <;>
      simp_all [Ringbuffer.returned, Ringbuffer.incremented, Locks.State.credit,
        Stage.enqueueFrom, Stage.dequeueFrom, EnqueuePc.position, DequeuePc.position]
  -- what is left are the returns
  all_goals
    obtain ⟨h1, h2, h3, h4, h5, h6, h7, h8⟩ := hbalanced
    simp only [Ringbuffer.returned, Ringbuffer.incremented, Locks.State.credit, *,
      Stage.enqueueFrom, Stage.dequeueFrom, EnqueuePc.position, DequeuePc.position,
      Pc.incremented] at h1 h2 h3 h4 h5 h6 h7 h8
    constructor <;>
      simp [Ringbuffer.returned, Ringbuffer.incremented, Locks.State.credit, *,
        Stage.enqueueFrom, Stage.dequeueFrom, EnqueuePc.position, DequeuePc.position,
        Pc.incremented]
  all_goals omega

theorem Effect.balanced (heffect : Effect r t next) (hbalanced : r.Balanced u) :
    next.Balanced u := by
  by_cases hu : u = t
  · subst hu
    exact heffect.balanced_self hbalanced
  · exact hbalanced.of_same (heffect.sameCounts hu)

/-! ## The mutexes of the buffer -/

theorem run_locks (hrun : r.run t = some next) :
    next.locks = r.locks ∨ ∃ c : Call Sem, next.locks = r.locks.goto t c.entry := by
  unfold Ringbuffer.run at hrun
  split at hrun
  next c hcall =>
    cases hrun
    exact .inr ⟨c, rfl⟩
  next hcall =>
    left
    split at hrun
    next hstage => cases hrun
    next v line hstage => cases line <;> cases hrun <;> rfl
    next line hstage => cases line <;> cases hrun <;> rfl

theorem resume_locks (hresume : r.resume t = some next) :
    next.locks = r.locks := by
  unfold Ringbuffer.resume at hresume
  split at hresume <;> cases hresume <;> rfl

/-! ## What a thread has on its way through a call -/

theorem Stage.enqueueFrom_le {stage : Stage} {i j : Nat} (hij : i ≤ j) :
    stage.enqueueFrom j ≤ stage.enqueueFrom i := by
  cases stage with
  | enqueue v line =>
      simp only [Stage.enqueueFrom]
      split
      · rw [if_pos (by omega)]
      · exact Nat.zero_le _
  | _ => exact le_rfl

theorem Stage.dequeueFrom_le {stage : Stage} {i j : Nat} (hij : i ≤ j) :
    stage.dequeueFrom j ≤ stage.dequeueFrom i := by
  cases stage with
  | dequeue line =>
      simp only [Stage.dequeueFrom]
      split
      · rw [if_pos (by omega)]
      · exact Nat.zero_le _
  | _ => exact le_rfl

omit [DecidableEq T] in
theorem Ringbuffer.Aligned.credit_eq_zero (haligned : r.Aligned) {m : Sem}
    (hcall : (r.stage t).call ≠ some (.release m)) : r.locks.credit m t = 0 := by
  apply if_neg
  intro hincremented
  exact hcall (haligned t _ (Pc.within_of_incremented hincremented))

omit [DecidableEq T] in
theorem Ringbuffer.Aligned.credit_sema (haligned : r.Aligned) (t : T) :
    r.locks.credit .sema t ≤ (r.stage t).dequeueFrom 4 := by
  by_cases hcall : (r.stage t).call = some (.release .sema)
  · have hle : r.locks.credit .sema t ≤ 1 := Locks.State.credit_le_one
    cases hstage : r.stage t with
    | idle => simp [hstage, Stage.call] at hcall
    | enqueue v line => cases line <;> simp [hstage, Stage.call] at hcall
    | dequeue line =>
        cases line <;> simp [hstage, Stage.call] at hcall
        simpa [Stage.dequeueFrom, DequeuePc.position] using hle
  · rw [haligned.credit_eq_zero hcall]
    exact Nat.zero_le _

omit [DecidableEq T] in
theorem Ringbuffer.Aligned.credit_empty (haligned : r.Aligned) (t : T) :
    r.locks.credit .empty t ≤ (r.stage t).enqueueFrom 4 := by
  by_cases hcall : (r.stage t).call = some (.release .empty)
  · have hle : r.locks.credit .empty t ≤ 1 := Locks.State.credit_le_one
    cases hstage : r.stage t with
    | idle => simp [hstage, Stage.call] at hcall
    | enqueue v line =>
        cases line <;> simp [hstage, Stage.call] at hcall
        simpa [Stage.enqueueFrom, EnqueuePc.position] using hle
    | dequeue line => cases line <;> simp [hstage, Stage.call] at hcall
  · rw [haligned.credit_eq_zero hcall]
    exact Nat.zero_le _

omit [DecidableEq T] in
/-- A thread that has released `mutex` has acquired it before. -/
theorem Ringbuffer.Aligned.credit_mutex (haligned : r.Aligned) (t : T) :
    (r.stage t).enqueueFrom 8 + (r.stage t).dequeueFrom 8 + r.locks.credit .mutex t ≤
      (r.stage t).enqueueFrom 2 + (r.stage t).dequeueFrom 2 := by
  by_cases hcall : (r.stage t).call = some (.release .mutex)
  · have hle : r.locks.credit .mutex t ≤ 1 := Locks.State.credit_le_one
    cases hstage : r.stage t with
    | idle => simp [hstage, Stage.call] at hcall
    | enqueue v line =>
        cases line <;> simp [hstage, Stage.call] at hcall
        simpa [Stage.enqueueFrom, Stage.dequeueFrom, EnqueuePc.position] using hle
    | dequeue line =>
        cases line <;> simp [hstage, Stage.call] at hcall
        simpa [Stage.enqueueFrom, Stage.dequeueFrom, DequeuePc.position] using hle
  · rw [haligned.credit_eq_zero hcall]
    have henqueue : (r.stage t).enqueueFrom 8 ≤ (r.stage t).enqueueFrom 2 :=
      Stage.enqueueFrom_le (by omega)
    have hdequeue : (r.stage t).dequeueFrom 8 ≤ (r.stage t).dequeueFrom 2 :=
      Stage.dequeueFrom_le (by omega)
    omega

/-- The statements between the acquisition and the release of `mutex`. -/
def Stage.Accesses (stage : Stage) : Prop := stage ≠ .idle ∧ stage.call = none

omit [DecidableEq T] in
theorem Stage.Accesses.counts {stage : Stage} (haccesses : stage.Accesses) :
    stage.enqueueFrom 8 + stage.dequeueFrom 8 = 0 ∧
      stage.enqueueFrom 2 + stage.dequeueFrom 2 = 1 := by
  obtain ⟨hidle, hcall⟩ := haccesses
  cases stage with
  | idle => exact absurd rfl hidle
  | enqueue v line =>
      cases line <;> simp [Stage.call] at hcall <;>
        simp [Stage.enqueueFrom, Stage.dequeueFrom, EnqueuePc.position]
  | dequeue line =>
      cases line <;> simp [Stage.call] at hcall <;>
        simp [Stage.enqueueFrom, Stage.dequeueFrom, DequeuePc.position]

section Reachable

variable {n : Nat} {memory : Nat → Int} {guard : Ringbuffer T → T → Operation → Prop}

/-- The mutexes run as if their callers were any threads. -/
theorem reachable_locks (hreach : (machine n memory guard).Reachable r) :
    (Locks.machine (permits n) fun _ _ _ => True).Reachable r.locks := by
  apply hreach.project Ringbuffer.locks rfl
  intro r label next hstep
  obtain ⟨_, hact⟩ := hstep
  cases label with
  | call t op =>
      left
      simp only [Ringbuffer.act, Option.ite_none_right_eq_some] at hact
      obtain ⟨_, heq⟩ := hact
      cases heq
      rfl
  | step t =>
      simp only [Ringbuffer.act, Ringbuffer.step] at hact
      split at hact
      · cases hact
      next halive =>
        split at hact
        next hpc =>
          rcases run_locks hact with hsame | ⟨c, hcall⟩
          · exact .inl hsame
          · refine .inr ⟨.call t c, trivial, ?_⟩
            simp [Locks.State.act, halive, hpc, hcall]
        next hpc =>
          split at hact
          · cases hact
          next locks hlocks =>
            refine .inr ⟨.step t, trivial, ?_⟩
            split at hact
            · rw [resume_locks hact]
              exact hlocks
            · cases hact
              exact hlocks

theorem reachable_balanced (hreach : (machine n memory guard).Reachable r) (t : T) :
    r.Balanced t := by
  apply hreach.invariant fun r => r.Balanced t
  · constructor <;> simp [machine, initRingbuffer, Locks.initState, Ringbuffer.returned,
      Ringbuffer.incremented, Locks.State.credit, timesOf, Stage.enqueueFrom, Stage.dequeueFrom,
      Pc.incremented]
  · intro r label next hreach hbalanced hstep
    exact (reachable_effect hreach hstep).balanced hbalanced

/-- With accesses after the acquisition of `m` and releases of it, the accesses are bounded by
its permits; `extra` may be those who are about to access. -/
theorem access_bound (hreach : (machine n memory guard).Reachable r) (m : Sem)
    {accesses releases : List (T × Int)} (extra : List T)
    (hextra : ∀ t, extra.count t + timesOf accesses t ≤ r.returned t m)
    (hreleases : ∀ t, r.incremented t m ≤ timesOf releases t) :
    extra.length + accesses.length ≤ permits n m + releases.length := by
  have hlocks := reachable_locks hreach
  have hreturned : (extra ++ accesses.map Prod.fst).length ≤
      (r.locks.history m).returned.length := by
    apply length_le_of_count_le
    intro t
    rw [List.count_append]
    exact hextra t
  have hgranted : (r.locks.history m).returned.length ≤ (r.locks.history m).granted.length :=
    length_le_of_count_le (Locks.returned_le_granted hlocks m)
  have hpermits := Locks.granted_length_le hlocks m
  have hincremented : (r.locks.history m).incremented.length ≤
      (releases.map Prod.fst).length :=
    length_le_of_count_le hreleases
  simp only [List.length_append, List.length_map] at *
  omega

/-- There are at most as many entries as slots. -/
theorem written_bound (hreach : (machine n memory guard).Reachable r) (extra : List T)
    (hextra : ∀ t, extra.count t + timesOf r.written t ≤ r.returned t .sema) :
    extra.length + r.written.length ≤ n + r.read.length := by
  apply access_bound hreach .sema extra hextra
  intro t
  have hcount := (reachable_balanced hreach t).incremented_sema
  have hread := (reachable_balanced hreach t).read
  have hcredit := (reachable_aligned hreach).credit_sema t
  omega

/-- An entry is loaded after it has been stored. -/
theorem read_bound (hreach : (machine n memory guard).Reachable r) (extra : List T)
    (hextra : ∀ t, extra.count t + timesOf r.read t ≤ r.returned t .empty) :
    extra.length + r.read.length ≤ r.written.length := by
  have hbound : extra.length + r.read.length ≤ permits n .empty + r.written.length := by
    apply access_bound hreach .empty extra hextra
    intro t
    have hcount := (reachable_balanced hreach t).incremented_empty
    have hwritten := (reachable_balanced hreach t).written
    have hcredit := (reachable_aligned hreach).credit_empty t
    omega
  simpa [permits] using hbound

theorem written_le (hreach : (machine n memory guard).Reachable r) :
    r.written.length ≤ n + r.read.length := by
  have hbound := written_bound hreach [] fun t => by
    have hwritten := (reachable_balanced hreach t).written
    have hreturned := (reachable_balanced hreach t).returned_sema
    have hle : (r.stage t).enqueueFrom 4 ≤ (r.stage t).enqueueFrom 1 :=
      Stage.enqueueFrom_le (by omega)
    rw [List.count_nil]
    omega
  simpa using hbound

theorem read_le (hreach : (machine n memory guard).Reachable r) :
    r.read.length ≤ r.written.length := by
  have hbound := read_bound hreach [] fun t => by
    have hread := (reachable_balanced hreach t).read
    have hreturned := (reachable_balanced hreach t).returned_empty
    have hle : (r.stage t).dequeueFrom 4 ≤ (r.stage t).dequeueFrom 1 :=
      Stage.dequeueFrom_le (by omega)
    rw [List.count_nil]
    omega
  simpa using hbound

/-- Whoever is about to store has a free slot. -/
theorem written_lt (hreach : (machine n memory guard).Reachable r) {v : Int} {slot : Nat}
    (hstage : r.stage t = .enqueue v (.storeSlot slot)) :
    r.written.length < n + r.read.length := by
  have hbound := written_bound hreach [t] fun u => by
    have hwritten := (reachable_balanced hreach u).written
    have hreturned := (reachable_balanced hreach u).returned_sema
    by_cases hu : u = t
    · subst hu
      rw [hstage] at hwritten hreturned
      simp [Stage.enqueueFrom, EnqueuePc.position] at hwritten hreturned
      simp
      omega
    · have hle : (r.stage u).enqueueFrom 4 ≤ (r.stage u).enqueueFrom 1 :=
        Stage.enqueueFrom_le (by omega)
      simp [Ne.symm hu]
      omega
  simp only [List.length_singleton] at hbound
  omega

/-- Whoever is about to load has an entry. -/
theorem read_lt (hreach : (machine n memory guard).Reachable r) {slot : Nat}
    (hstage : r.stage t = .dequeue (.loadSlot slot)) : r.read.length < r.written.length := by
  have hbound := read_bound hreach [t] fun u => by
    have hread := (reachable_balanced hreach u).read
    have hreturned := (reachable_balanced hreach u).returned_empty
    by_cases hu : u = t
    · subst hu
      rw [hstage] at hread hreturned
      simp [Stage.dequeueFrom, DequeuePc.position] at hread hreturned
      simp
      omega
    · have hle : (r.stage u).dequeueFrom 4 ≤ (r.stage u).dequeueFrom 1 :=
        Stage.dequeueFrom_le (by omega)
      simp [Ne.symm hu]
      omega
  simp only [List.length_singleton] at hbound
  omega

/-- One thread at a time accesses the buffer. -/
theorem one_access (hreach : (machine n memory guard).Reachable r)
    (ht : (r.stage t).Accesses) (hu : (r.stage u).Accesses) : t = u := by
  have hlocks := reachable_locks hreach
  have haligned := reachable_aligned hreach
  have hcovered : ∀ v, (r.locks.history .mutex).incremented.count v ≤
      (r.locks.history .mutex).granted.count v := by
    intro v
    have hincremented := (reachable_balanced hreach v).incremented_mutex
    have hreturned := (reachable_balanced hreach v).returned_mutex
    have hle := Locks.returned_le_granted hlocks .mutex v
    have hcredit := haligned.credit_mutex v
    simp only [Ringbuffer.incremented, Ringbuffer.returned] at hincremented hreturned
    omega
  have haccess : ∀ v, (r.stage v).Accesses → (r.locks.history .mutex).incremented.count v <
      (r.locks.history .mutex).granted.count v := by
    intro v hv
    have hincremented := (reachable_balanced hreach v).incremented_mutex
    have hreturned := (reachable_balanced hreach v).returned_mutex
    have hle := Locks.returned_le_granted hlocks .mutex v
    have hcredit := haligned.credit_eq_zero (m := .mutex) (t := v) (by simp [hv.2])
    have hcounts := hv.counts
    simp only [Ringbuffer.incremented, Ringbuffer.returned] at hincremented hreturned
    omega
  have hlength := Locks.granted_length_le hlocks .mutex
  simp only [permits] at hlength
  exact holder_unique hcovered (by omega) (haccess t ht) (haccess u hu)

end Reachable

end OperatingSystem.Ring
