import OperatingSystem.RingProgram

/-!
# The calls of a thread

What a thread sees of a step of the ring buffer: its own call goes on or returns, and the steps
of the others do not show. The loops of the generators and of the counter are tied to the calls
that they have finished, and their accounts to the values of these calls.
-/

namespace OperatingSystem.Ring

open RingLoops (MAX_VALUE nrRequestsToGenerate)

/-! ## A step as a thread sees it -/

section Calls

variable {T : Type*} [DecidableEq T] {r next : Ringbuffer T} {t u : T}

/-- The step does not show to `u`. -/
structure Unseen (r next : Ringbuffer T) (u : T) : Prop where
  stage : next.stage u = r.stage u
  calls : next.calls u = r.calls u
  enqueued : ∀ v, next.enqueued.count (u, v) = r.enqueued.count (u, v)
  dequeued : ∀ v, next.dequeued.count (u, v) = r.dequeued.count (u, v)

theorem Effect.unseen (heffect : Effect r t next) (hu : u ≠ t) : Unseen r next u where
  stage := heffect.stage_of_ne hu
  calls := by
    have henqueued : timesOf next.enqueued u = timesOf r.enqueued u := by
      cases heffect <;> simp [Ne.symm hu]
    have hdequeued : timesOf next.dequeued u = timesOf r.dequeued u := by
      cases heffect <;> simp [Ne.symm hu]
    rw [Ringbuffer.calls, henqueued, hdequeued, Ringbuffer.calls]
  enqueued := fun v => by
    cases heffect <;> simp [Ne.symm hu]
  dequeued := fun v => by
    cases heffect <;> simp [Ne.symm hu]

/-- A call of `enqueue_into_ringbuffer` goes on, or it returns and is counted. -/
theorem Effect.enqueue_cases (heffect : Effect r t next) {v : Int} {line : EnqueuePc}
    (hstage : r.stage t = .enqueue v line) :
    ((∃ line', next.stage t = .enqueue v line') ∧ next.enqueued = r.enqueued ∧
        next.dequeued = r.dequeued) ∨
      (next.stage t = .idle ∧ next.enqueued = r.enqueued ++ [(t, v)] ∧
        next.dequeued = r.dequeued) := by
  cases heffect
  case call | inside => exact .inl ⟨⟨line, hstage⟩, rfl, rfl⟩
  case enqueueDone v' hstage' _ =>
    obtain ⟨rfl, -⟩ := Stage.enqueue.inj (hstage.symm.trans hstage')
    exact .inr (by simp)
  all_goals
    simp_all

/-- A call of `dequeue_from_ringbuffer` goes on, or it returns and is counted. -/
theorem Effect.dequeue_cases (heffect : Effect r t next) {line : DequeuePc}
    (hstage : r.stage t = .dequeue line) :
    ((∃ line', next.stage t = .dequeue line') ∧ next.enqueued = r.enqueued ∧
        next.dequeued = r.dequeued) ∨
      (next.stage t = .idle ∧ r.stage t = .dequeue (.releaseSema (r.stage t).result) ∧
        next.enqueued = r.enqueued ∧
        next.dequeued = r.dequeued ++ [(t, (r.stage t).result)]) := by
  cases heffect
  case call | inside => exact .inl ⟨⟨line, hstage⟩, rfl, rfl⟩
  case dequeueDone v hstage' _ =>
    refine .inr ?_
    rw [hstage']
    exact ⟨by simp, rfl, by simp, by simp [Stage.result]⟩
  all_goals
    simp_all

/-- What is called is what the thread does next. -/
theorem act_call {op : Operation} (hact : r.act (.call t op) = some next) :
    r.stage t = .idle ∧ next = r.goto t op.entry := by
  simp only [Ringbuffer.act, Option.ite_none_right_eq_some] at hact
  exact ⟨hact.1.2, (Option.some.inj hact.2).symm⟩

end Calls

variable {T : Type*} [DecidableEq T] {K R : Nat} {r next : Ringbuffer T} {t : T}

open Program (InRange)

/-- A value in range is the index of its entry. -/
theorem entry?_of_inRange {value : Int} (hrange : InRange value) :
    ∃ entry : Fin MAX_VALUE, entry? value = some entry ∧ (entry.val : Int) = value := by
  have hbounds : 0 ≤ value ∧ value < (MAX_VALUE : Nat) := hrange
  exact ⟨_, dif_pos hbounds, Int.toNat_of_nonneg hbounds.1⟩

/-! ## A generator -/

namespace GeneratorPc

/-- The calls that have returned, of `K` calls in all. -/
def calls (K : Nat) : GeneratorPc → Nat
  | .notCreated | .barrier 0 _ => 0
  | .turn i | .assertValue i _ | .enqueue i _ => i
  | .account i _ | .report i => i + 1
  | .barrier _ _ | .finished => K

/-- The argument of the call that has not returned. -/
def calling : GeneratorPc → Option Int
  | .enqueue _ value => some value
  | _ => none

/-- The value that is not in the account yet. -/
def owed : GeneratorPc → Option Int
  | .account _ value => some value
  | _ => none

def Valid (K : Nat) : GeneratorPc → Prop
  | .turn i => i ≤ K
  | .assertValue i value | .enqueue i value | .account i value => i < K ∧ InRange value
  | .report i => i < K
  | .notCreated | .barrier _ _ | .finished => True

theorem Valid.calling {pc : GeneratorPc} (hvalid : pc.Valid K) {value : Int}
    (hcalling : pc.calling = some value) : InRange value := by
  cases pc <;> cases hcalling
  exact hvalid.2

end GeneratorPc

/-- A generator has made the calls that its place tells, with values in range, and its account
tells the values. -/
structure Generating (K : Nat) (r : Ringbuffer T) (t : T) (pc : GeneratorPc)
    (generated : Fin MAX_VALUE → Nat) : Prop where
  valid : pc.Valid K
  calls : r.calls t = pc.calls K
  idle : pc.calling = none → r.stage t = .idle
  busy : ∀ value, pc.calling = some value → ∃ line, r.stage t = .enqueue value line
  enqueued : ∀ value, (t, value) ∈ r.enqueued → InRange value
  accounted : ∀ value : Fin MAX_VALUE, generated value + (if pc.owed = some (value.val : Int)
    then 1 else 0) = r.enqueued.count (t, (value.val : Int))

namespace Generating

variable {pc pc' : GeneratorPc} {generated : Fin MAX_VALUE → Nat}
  (hgenerating : Generating K r t pc generated)
include hgenerating

/-- A step that does not show. -/
theorem unseen (hunseen : Unseen r next t) : Generating K next t pc generated where
  valid := hgenerating.valid
  calls := hunseen.calls.trans hgenerating.calls
  idle := fun hcalling => hunseen.stage.trans (hgenerating.idle hcalling)
  busy := fun value hcalling => by
    rw [hunseen.stage]
    exact hgenerating.busy value hcalling
  enqueued := fun value hmem => by
    rw [← List.count_pos_iff, hunseen.enqueued, List.count_pos_iff] at hmem
    exact hgenerating.enqueued value hmem
  accounted := fun value => by
    rw [hunseen.enqueued]
    exact hgenerating.accounted value

/-- A step outside the ring buffer. -/
theorem move (hvalid : pc'.Valid K) (hcalls : pc'.calls K = pc.calls K)
    (hcalling : pc.calling = none) (hcalling' : pc'.calling = none) (howed : pc'.owed = pc.owed) :
    Generating K r t pc' generated where
  valid := hvalid
  calls := hgenerating.calls.trans hcalls.symm
  idle := fun _ => hgenerating.idle hcalling
  busy := fun value hvalue => by
    rw [hcalling'] at hvalue
    cases hvalue
  enqueued := hgenerating.enqueued
  accounted := by
    rw [howed]
    exact hgenerating.accounted

/-- The call of `enqueue_into_ringbuffer`. -/
theorem call {i : Nat} {value : Int} (hpc : pc = .assertValue i value) :
    Generating K (r.goto t (Operation.enqueue value).entry) t (.enqueue i value)
      generated := by
  subst hpc
  refine ⟨hgenerating.valid, hgenerating.calls, nofun, fun value' hvalue => ?_,
    hgenerating.enqueued, hgenerating.accounted⟩
  obtain rfl := Option.some.inj hvalue
  exact ⟨.acquireSema, by simp [Operation.entry]⟩

/-- A step inside the call, which may return. -/
theorem inside {i : Nat} {value : Int} (hpc : pc = .enqueue i value)
    (heffect : Effect r t next) :
    Generating K next t (if next.stage t = .idle then .account i value else pc)
      generated := by
  subst hpc
  obtain ⟨line, hstage⟩ := hgenerating.busy value rfl
  have hcalls := hgenerating.calls
  rcases heffect.enqueue_cases hstage with ⟨⟨line', hnext⟩, henqueued, hdequeued⟩ |
      ⟨hnext, henqueued, hdequeued⟩
  · rw [hnext, if_neg (by simp)]
    refine ⟨hgenerating.valid, ?_, (fun hvalue => by cases hvalue), fun value' hvalue => ?_, ?_, ?_⟩
    · rw [← hcalls, Ringbuffer.calls, henqueued, hdequeued, Ringbuffer.calls]
    · obtain rfl := Option.some.inj hvalue
      exact ⟨line', hnext⟩
    · rw [henqueued]
      exact hgenerating.enqueued
    · rw [henqueued]
      exact hgenerating.accounted
  · rw [if_pos hnext]
    refine ⟨hgenerating.valid, ?_, fun _ => hnext, (fun _ hvalue => by cases hvalue),
      fun value' hmem => ?_, fun value' => ?_⟩
    · simp only [Ringbuffer.calls, GeneratorPc.calls] at hcalls ⊢
      rw [henqueued, hdequeued, timesOf_append, if_pos rfl]
      omega
    · rw [henqueued, List.mem_append, List.mem_singleton, Prod.mk.injEq] at hmem
      rcases hmem with hmem | ⟨-, rfl⟩
      · exact hgenerating.enqueued value' hmem
      · exact hgenerating.valid.2
    · have hbefore := hgenerating.accounted value'
      rw [henqueued, List.count_append, List.count_singleton, ← hbefore]
      simp [GeneratorPc.owed]

/-- `my->generated[value]++` -/
theorem account {i : Nat} {value : Int} (hpc : pc = .account i value) {entry : Fin MAX_VALUE}
    (hentry : (entry.val : Int) = value) : Generating K r t (.report i)
      (Function.update generated entry (generated entry + 1)) := by
  subst hpc
  refine ⟨hgenerating.valid.1, hgenerating.calls, fun _ => hgenerating.idle rfl, nofun,
    hgenerating.enqueued, fun value' => ?_⟩
  have hbefore := hgenerating.accounted value'
  rw [← hbefore]
  rcases eq_or_ne value' entry with rfl | hne
  · simp [GeneratorPc.owed, hentry]
  · have hvalue : value ≠ (value'.val : Int) := fun heq =>
      hne (Fin.ext (Int.ofNat.inj (heq.symm.trans hentry.symm)))
    simp [GeneratorPc.owed, hne, hvalue]

end Generating

/-! ## The counter -/

namespace CounterPc

def calls (R : Nat) : CounterPc → Nat
  | .notCreated => 0
  | .turn i | .dequeue i => i
  | .assertValue i _ | .account i _ | .report i => i + 1
  | .finished => R

def calling : CounterPc → Bool
  | .dequeue _ => true
  | _ => false

def owed : CounterPc → Option Int
  | .assertValue _ value | .account _ value => some value
  | _ => none

def Valid (R : Nat) : CounterPc → Prop
  | .turn i => i ≤ R
  | .assertValue i value | .account i value => i < R ∧ InRange value
  | .dequeue i | .report i => i < R
  | .notCreated | .finished => True

end CounterPc

/-- The counter has made the calls that its place tells, and its account tells what they
returned. -/
structure Counting (R : Nat) (r : Ringbuffer T) (t : T) (pc : CounterPc)
    (counted : Fin MAX_VALUE → Nat) : Prop where
  valid : pc.Valid R
  calls : r.calls t = pc.calls R
  idle : pc.calling = false → r.stage t = .idle
  busy : pc.calling = true → ∃ line, r.stage t = .dequeue line
  accounted : ∀ value : Fin MAX_VALUE, counted value + (if pc.owed = some (value.val : Int)
    then 1 else 0) = r.dequeued.count (t, (value.val : Int))

namespace Counting

variable {pc pc' : CounterPc} {counted : Fin MAX_VALUE → Nat}
  (hcounting : Counting R r t pc counted)
include hcounting

theorem unseen (hunseen : Unseen r next t) : Counting R next t pc counted where
  valid := hcounting.valid
  calls := hunseen.calls.trans hcounting.calls
  idle := fun hcalling => hunseen.stage.trans (hcounting.idle hcalling)
  busy := fun hcalling => by
    rw [hunseen.stage]
    exact hcounting.busy hcalling
  accounted := fun value => by
    rw [hunseen.dequeued]
    exact hcounting.accounted value

theorem move (hvalid : pc'.Valid R) (hcalls : pc'.calls R = pc.calls R)
    (hcalling : pc.calling = false) (hcalling' : pc'.calling = false) (howed : pc'.owed = pc.owed) :
    Counting R r t pc' counted where
  valid := hvalid
  calls := hcounting.calls.trans hcalls.symm
  idle := fun _ => hcounting.idle hcalling
  busy := fun hbusy => by
    rw [hcalling'] at hbusy
    cases hbusy
  accounted := by
    rw [howed]
    exact hcounting.accounted

/-- The call of `dequeue_from_ringbuffer`. -/
theorem call {i : Nat} (hpc : pc = .turn i) (hi : i < R) :
    Counting R (r.goto t Operation.dequeue.entry) t (.dequeue i) counted := by
  subst hpc
  exact ⟨hi, hcounting.calls, nofun, fun _ => ⟨.acquireEmpty, by simp [Operation.entry]⟩,
    hcounting.accounted⟩

/-- A step inside the call, which may return a value in range. -/
theorem inside {i : Nat} (hpc : pc = .dequeue i) (heffect : Effect r t next)
    (hrange : r.stage t = .dequeue (.releaseSema (r.stage t).result) →
      InRange (r.stage t).result) :
    Counting R next t
      (if next.stage t = .idle then .assertValue i (r.stage t).result else pc) counted := by
  subst hpc
  obtain ⟨line, hstage⟩ := hcounting.busy rfl
  have hcalls := hcounting.calls
  rcases heffect.dequeue_cases hstage with ⟨⟨line', hnext⟩, henqueued, hdequeued⟩ |
      ⟨hnext, hreturns, henqueued, hdequeued⟩
  · rw [hnext, if_neg (by simp)]
    refine ⟨hcounting.valid, ?_, (fun hbusy => by cases hbusy), fun _ => ⟨line', hnext⟩, ?_⟩
    · rw [← hcalls, Ringbuffer.calls, henqueued, hdequeued, Ringbuffer.calls]
    · rw [hdequeued]
      exact hcounting.accounted
  · rw [if_pos hnext]
    refine ⟨⟨hcounting.valid, hrange hreturns⟩, ?_, fun _ => hnext, (fun hbusy => by cases hbusy),
      fun value => ?_⟩
    · simp only [Ringbuffer.calls, CounterPc.calls] at hcalls ⊢
      rw [henqueued, hdequeued, timesOf_append, if_pos rfl]
      omega
    · have hbefore := hcounting.accounted value
      rw [hdequeued, List.count_append, List.count_singleton, ← hbefore]
      simp [CounterPc.owed]

/-- `value_counter[value]++` -/
theorem account {i : Nat} {value : Int} (hpc : pc = .account i value) {entry : Fin MAX_VALUE}
    (hentry : (entry.val : Int) = value) : Counting R r t (.report i)
      (Function.update counted entry (counted entry + 1)) := by
  subst hpc
  refine ⟨hcounting.valid.1, hcounting.calls, fun _ => hcounting.idle rfl, nofun,
    fun value' => ?_⟩
  have hbefore := hcounting.accounted value'
  rw [← hbefore]
  rcases eq_or_ne value' entry with rfl | hne
  · simp [CounterPc.owed, hentry]
  · have hvalue : value ≠ (value'.val : Int) := fun heq =>
      hne (Fin.ext (Int.ofNat.inj (heq.symm.trans hentry.symm)))
    simp [CounterPc.owed, hne, hvalue]

end Counting

end OperatingSystem.Ring
