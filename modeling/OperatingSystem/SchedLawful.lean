import OperatingSystem.SchedPolicies

/-!
# The contract of a scheduler

The four schedulers differ in the priorities that they assign, in the waiter that a
release wakes and in the process that they run; a `Policy` names these choices. All
of them grant a free resource, block on an owned one, wake one waiter of a released
one, and run a candidate unless there is none. `Lawful` states this, and the
invariants of the simulation are proved from it.
-/

namespace OperatingSystem.Sched

variable {n : Nat}

/-- Assign all priorities. -/
def Sim.setPrios (s : Sim n) (prios : Fin n → Nat) : Sim n :=
  { s with procs := fun p => { s.procs p with prio := prios p } }

/-- The running process, if it can run on. -/
def Sim.eligible (s : Sim n) : List (Fin n) :=
  match s.running with
  | some p => if (s.procs p).age < (s.procs p).lifespan then [p] else []
  | none => []

/-- The processes that can run, in the order in which `prio_schedule` visits them. -/
def Sim.candidates (s : Sim n) : List (Fin n) := s.readyqueue ++ s.eligible

/-- What the schedulers are free to choose. -/
structure Policy (n : Nat) where
  /-- the priorities after a grant to a process -/
  granted : Sim n → Fin n → Fin n → Nat
  /-- the priorities after a process blocks on a resource of an owner -/
  blocked : Sim n → Fin n → Fin n → Fin n → Nat
  /-- the priorities after a release by a process -/
  released : Sim n → Fin n → Fin n → Nat
  /-- the process to wake from a queue, given as its first element and the rest -/
  waiter : Sim n → Fin n → List (Fin n) → Fin n
  /-- the relation of the chosen process to the other candidates -/
  prefers : Process → Process → Prop

/-- The outcome of the `schedule` callback. -/
structure Chosen (policy : Policy n) (s : Sim n) (next : Option (Fin n))
    (queue : List (Fin n)) : Prop where
  perm : (next.toList ++ queue).Perm s.candidates
  idle : next = none → queue = []
  prefers : ∀ p, next = some p → ∀ q ∈ s.candidates, policy.prefers (s.procs p) (s.procs q)

structure Lawful (sched : Scheduler n) (policy : Policy n) : Prop where
  schedule : ∀ s : Sim n, (∀ q ∈ s.readyqueue, (s.procs q).age ≤ (s.procs q).lifespan) →
    ∃ next queue, sched.schedule s = .ok (next, { s with readyqueue := queue }) ∧
      Chosen policy s next queue
  acquire_free : ∀ (s : Sim n) p r, (s.resources r).owner = none →
    sched.acquire s p r = (true, (s.setPrios (policy.granted s p)).setOwner r (some p))
  acquire_owned : ∀ (s : Sim n) p r q, (s.resources r).owner = some q →
    sched.acquire s p r = (false, (s.setPrios (policy.blocked s p q)).block p r)
  release_idle : ∀ (s : Sim n) p r, (s.resources r).owner = some p →
    (s.resources r).waitqueue = [] →
    sched.release s p r = .ok ((s.setPrios (policy.released s p)).setOwner r none)
  release_wake : ∀ (s : Sim n) p r first rest, (s.resources r).owner = some p →
    (s.resources r).waitqueue = first :: rest →
    let freed := (s.setPrios (policy.released s p)).setOwner r none
    sched.release s p r = freed.wake r (policy.waiter freed first rest)
  waiter_mem : ∀ (s : Sim n) first rest, policy.waiter s first rest ∈ first :: rest

/-! ## The four policies -/

def fifoPolicy : Policy n where
  granted := fun s _ => s.prio
  blocked := fun s _ _ => s.prio
  released := fun s _ => s.prio
  waiter := fun _ first _ => first
  prefers := fun _ _ => True

def prioPolicy : Policy n :=
  { fifoPolicy with prefers := fun p q => q.prio ≤ p.prio }

def pcpPolicy : Policy n where
  granted := fun s p => Function.update s.prio p MAX_PRIO
  blocked := fun s _ _ => s.prio
  released := fun s p => Function.update s.prio p (s.procs p).prioOrig
  waiter := fun s first rest => scanMax s.prio first (first :: rest)
  prefers := fun p q => q.prio ≤ p.prio

def pipPolicy : Policy n :=
  { pcpPolicy with
    granted := fun s _ => s.prio
    blocked := fun s p q => Function.update s.prio q (max (s.prio q) (s.prio p)) }

@[simp] theorem setPrios_prio (s : Sim n) : s.setPrios s.prio = s := rfl

theorem setPrio_eq (s : Sim n) (p : Fin n) (prio : Nat) :
    s.setPrio p prio = s.setPrios (Function.update s.prio p prio) := by
  simp only [Sim.setPrio, Sim.setProcess, Sim.setPrios, Sim.mk.injEq, and_self, and_true]
  funext q
  by_cases hq : q = p
  · subst hq
    simp
  · simp [hq, Sim.prio]

/-! ## Scheduling -/

section Schedule

variable {s : Sim n} {policy : Policy n}

theorem eligible_of_none (hrunning : s.running = none) : s.eligible = [] := by
  simp [Sim.eligible, hrunning]

theorem eligible_of_some {current : Fin n} (hrunning : s.running = some current) :
    s.eligible = if (s.procs current).age < (s.procs current).lifespan then [current] else [] := by
  simp [Sim.eligible, hrunning]

theorem candidates_of_some {current : Fin n} (hrunning : s.running = some current) :
    s.candidates = if (s.procs current).age < (s.procs current).lifespan
      then s.readyqueue ++ [current] else s.readyqueue := by
  rw [Sim.candidates, eligible_of_some hrunning]
  by_cases hage : (s.procs current).age < (s.procs current).lifespan <;> simp [hage]

theorem candidates_of_none (hrunning : s.running = none) : s.candidates = s.readyqueue := by
  simp [Sim.candidates, eligible_of_none hrunning]

/-- Nothing can run. -/
theorem chosen_none (hcandidates : s.candidates = []) : Chosen policy s none [] where
  perm := by simp [hcandidates]
  idle := fun _ => rfl
  prefers := by simp

theorem pickNext_chosen (hcandidates : s.candidates = s.readyqueue) :
    ∃ next queue, pickNext s = (next, { s with readyqueue := queue }) ∧
      Chosen fifoPolicy s next queue := by
  unfold pickNext
  cases hready : s.readyqueue with
  | nil => exact ⟨none, [], by simp [← hready], chosen_none (hcandidates.trans hready)⟩
  | cons first rest =>
      exact ⟨some first, rest, rfl, by simp [hcandidates, hready], by simp, fun _ _ _ _ => trivial⟩

theorem fifoSchedule_chosen (s : Sim n) :
    ∃ next queue, fifoSchedule s = .ok (next, { s with readyqueue := queue }) ∧
      Chosen fifoPolicy s next queue := by
  unfold fifoSchedule
  cases hrunning : s.running with
  | none =>
      obtain ⟨next, queue, heq, hchosen⟩ := pickNext_chosen (candidates_of_none hrunning)
      exact ⟨next, queue, congrArg Except.ok heq, hchosen⟩
  | some current =>
      have hcandidates := candidates_of_some hrunning
      by_cases hage : (s.procs current).age < (s.procs current).lifespan
      · rw [if_pos hage] at hcandidates
        refine ⟨some current, s.readyqueue, by simp [hage], ?_, by simp, fun _ _ _ _ => trivial⟩
        rw [hcandidates]
        exact (List.perm_append_singleton _ _).symm
      · rw [if_neg hage] at hcandidates
        obtain ⟨next, queue, heq, hchosen⟩ := pickNext_chosen hcandidates
        exact ⟨next, queue, by simp only [if_neg hage, heq], hchosen⟩

/-- `prio_schedule` takes the first candidate of the highest priority off their sequence. -/
theorem prioSchedule_spec (hages : ∀ q ∈ s.readyqueue, (s.procs q).age ≤ (s.procs q).lifespan) :
    (s.candidates = [] ∧ prioSchedule s = .ok (none, s)) ∨
      ∃ p, FirstGreatest s.prio s.candidates p ∧
        prioSchedule s = .ok (some p, { s with readyqueue := s.candidates.erase p }) := by
  cases hrunning : s.running with
  | none =>
      have hcandidates := candidates_of_none hrunning
      cases hready : s.readyqueue with
      | nil =>
          refine .inl ⟨hcandidates.trans hready, ?_⟩
          simp only [prioSchedule, hrunning, hready]
      | cons first rest =>
          rw [hready] at hcandidates
          rw [hcandidates]
          refine .inr ⟨_, scanMax_firstGreatest s.prio first rest, ?_⟩
          simp only [prioSchedule, hrunning, hready]
  | some current =>
      have hcandidates := candidates_of_some hrunning
      cases hready : s.readyqueue with
      | nil =>
          by_cases hage : (s.procs current).age < (s.procs current).lifespan
          · have hsingle : s.candidates = [current] := by simp [hcandidates, hage, hready]
            rw [hsingle]
            refine .inr ⟨current, ⟨[], [], rfl, by simp, by simp⟩, ?_⟩
            simp only [prioSchedule, hrunning, hready, if_pos hage, List.erase_cons_head]
            rw [← hready]
          · refine .inl ⟨by simp [hcandidates, hage, hready], ?_⟩
            simp only [prioSchedule, hrunning, hready, if_neg hage]
      | cons first rest =>
          obtain ⟨others, hothers⟩ : ∃ others, s.candidates = first :: others :=
            ⟨rest ++ s.eligible, by rw [Sim.candidates, hready, List.cons_append]⟩
          have hgreatest : FirstGreatest s.prio s.candidates
              (scanMax s.prio first s.candidates) := by
            rw [hothers]
            exact scanMax_firstGreatest s.prio first others
          have hold : ∀ q ∈ s.candidates, (s.procs q).age ≤ (s.procs q).lifespan := by
            intro q hq
            rcases List.mem_append.mp hq with hq | hq
            · exact hages q hq
            · rw [eligible_of_some hrunning] at hq
              by_cases hage : (s.procs current).age < (s.procs current).lifespan
              · simp only [if_pos hage, List.mem_singleton] at hq
                exact hq ▸ hage.le
              · simp [hage] at hq
          have hmem := (firstGreatest_iff_dual.mp hgreatest).mem
          refine .inr ⟨_, hgreatest, ?_⟩
          simp only [prioSchedule, hrunning, hready]
          rw [← hready, ← hcandidates, if_pos (hold _ hmem)]

theorem prioSchedule_chosen (hprefers : policy.prefers = fun p q => q.prio ≤ p.prio)
    (hages : ∀ q ∈ s.readyqueue, (s.procs q).age ≤ (s.procs q).lifespan) :
    ∃ next queue, prioSchedule s = .ok (next, { s with readyqueue := queue }) ∧
      Chosen policy s next queue := by
  rcases prioSchedule_spec hages with ⟨hempty, hschedule⟩ | ⟨p, hgreatest, hschedule⟩
  · have hready : s.readyqueue = [] := (List.append_eq_nil_iff.mp hempty).1
    refine ⟨none, [], ?_, chosen_none hempty⟩
    rw [hschedule, ← hready]
  · rw [firstGreatest_iff_dual] at hgreatest
    refine ⟨some p, s.candidates.erase p, hschedule, ?_, by simp, ?_⟩
    · exact (List.perm_cons_erase hgreatest.mem).symm
    · intro q hq other hother
      cases hq
      rw [hprefers]
      exact hgreatest.le hother

end Schedule

/-! ## The four schedulers -/

theorem fcfsAcquire_free (s : Sim n) (p : Fin n) (r : Fin NR_RESOURCES)
    (hfree : (s.resources r).owner = none) :
    fcfsAcquire s p r = (true, s.setOwner r (some p)) := by
  simp [fcfsAcquire, hfree]

theorem fcfsAcquire_owned (s : Sim n) (p : Fin n) (r : Fin NR_RESOURCES) (q : Fin n)
    (howned : (s.resources r).owner = some q) : fcfsAcquire s p r = (false, s.block p r) := by
  simp [fcfsAcquire, howned]

theorem fcfsRelease_idle (s : Sim n) (p : Fin n) (r : Fin NR_RESOURCES)
    (howned : (s.resources r).owner = some p) (hidle : (s.resources r).waitqueue = []) :
    fcfsRelease s p r = .ok (s.setOwner r none) := by
  simp [fcfsRelease, howned, Sim.setOwner, hidle]

theorem fcfsRelease_wake (s : Sim n) (p : Fin n) (r : Fin NR_RESOURCES) (first : Fin n)
    (rest : List (Fin n)) (howned : (s.resources r).owner = some p)
    (hqueue : (s.resources r).waitqueue = first :: rest) :
    fcfsRelease s p r = (s.setOwner r none).wake r first := by
  simp [fcfsRelease, howned, Sim.setOwner, hqueue]

theorem prioRelease_idle (s : Sim n) (p : Fin n) (r : Fin NR_RESOURCES)
    (howned : (s.resources r).owner = some p) (hidle : (s.resources r).waitqueue = []) :
    prioRelease s p r = .ok ((s.setPrios (pcpPolicy.released s p)).setOwner r none) := by
  simp only [prioRelease, howned, if_true, setPrio_eq]
  simp [Sim.setOwner, Sim.setPrios, hidle, pcpPolicy]

theorem prioRelease_wake (s : Sim n) (p : Fin n) (r : Fin NR_RESOURCES) (first : Fin n)
    (rest : List (Fin n)) (howned : (s.resources r).owner = some p)
    (hqueue : (s.resources r).waitqueue = first :: rest) :
    let freed := (s.setPrios (pcpPolicy.released s p)).setOwner r none
    prioRelease s p r = freed.wake r (pcpPolicy.waiter freed first rest) := by
  simp only [prioRelease, howned, if_true, setPrio_eq]
  simp [Sim.setOwner, Sim.setPrios, hqueue, pcpPolicy]

theorem fifoScheduler_lawful : Lawful (fifoScheduler : Scheduler n) fifoPolicy where
  schedule := fun s _ => fifoSchedule_chosen s
  acquire_free := fcfsAcquire_free
  acquire_owned := fcfsAcquire_owned
  release_idle := fcfsRelease_idle
  release_wake := fcfsRelease_wake
  waiter_mem := fun _ _ _ => List.mem_cons_self

theorem prioScheduler_lawful : Lawful (prioScheduler : Scheduler n) prioPolicy where
  schedule := fun _ => prioSchedule_chosen rfl
  acquire_free := fcfsAcquire_free
  acquire_owned := fcfsAcquire_owned
  release_idle := fcfsRelease_idle
  release_wake := fcfsRelease_wake
  waiter_mem := fun _ _ _ => List.mem_cons_self

theorem pcpScheduler_lawful : Lawful (pcpScheduler : Scheduler n) pcpPolicy where
  schedule := fun _ => prioSchedule_chosen rfl
  acquire_free := by
    intro s p r hfree
    show pcpAcquire s p r = _
    rw [pcpAcquire, hfree]
    simp only [setPrio_eq]
    rfl
  acquire_owned := by
    intro s p r q howned
    show pcpAcquire s p r = _
    rw [pcpAcquire, howned]
    rfl
  release_idle := prioRelease_idle
  release_wake := prioRelease_wake
  waiter_mem := fun s _ _ => scanMax_mem_of_mem s.prio List.mem_cons_self

theorem pipScheduler_lawful : Lawful (pipScheduler : Scheduler n) pipPolicy where
  schedule := fun _ => prioSchedule_chosen rfl
  acquire_free := by
    intro s p r hfree
    show pipAcquire s p r = _
    rw [pipAcquire, hfree]
    rfl
  acquire_owned := by
    intro s p r q howned
    show pipAcquire s p r = _
    simp only [pipAcquire, howned, Prod.mk.injEq, true_and, pipPolicy]
    by_cases hlt : (s.procs q).prio < (s.procs p).prio
    · have hmax : max (s.prio q) (s.prio p) = (s.procs p).prio := max_eq_right hlt.le
      rw [if_pos hlt, setPrio_eq, hmax]
    · have hmax : max (s.prio q) (s.prio p) = s.prio q := max_eq_left (not_lt.mp hlt)
      rw [if_neg hlt, hmax, Function.update_eq_self, setPrios_prio]
  release_idle := prioRelease_idle
  release_wake := prioRelease_wake
  waiter_mem := fun s _ _ => scanMax_mem_of_mem s.prio List.mem_cons_self

theorem schedulers_lawful {sched : Scheduler n} (hsched : sched ∈ schedulers n) :
    ∃ policy, Lawful sched policy := by
  simp only [schedulers, List.mem_cons, List.not_mem_nil, or_false] at hsched
  rcases hsched with rfl | rfl | rfl | rfl
  · exact ⟨_, fifoScheduler_lawful⟩
  · exact ⟨_, prioScheduler_lawful⟩
  · exact ⟨_, pcpScheduler_lawful⟩
  · exact ⟨_, pipScheduler_lawful⟩

end OperatingSystem.Sched
