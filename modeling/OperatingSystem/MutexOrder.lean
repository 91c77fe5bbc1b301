import OperatingSystem.MutexSignals

/-!
# Who has the mutex, and in which order

A thread that was granted the mutex more often than it returned from `acquire_mutex` is on
its way to return. When threads release what they acquired, at most one of them has a
mutex that was initialised with 1, and the calls return in the order of their `S--`.
-/

namespace OperatingSystem.Locks

variable {T M : Type*} [DecidableEq T] [DecidableEq M]

namespace State

variable (s : State T M) (m : M) (t : T)

/-- `t` was granted `m` in the call that it is in. -/
def Passed : Prop :=
  s.pc t = .acquire m .done ∨ (s.pc t).asleep = some m ∧ t ∉ (s.mutex m).queue

instance : Decidable (s.Passed m t) := by
  unfold Passed
  infer_instance

def Counted : Prop :=
  (s.history m).granted.count t =
    (s.history m).returned.count t + if s.Passed m t then 1 else 0

end State

variable {s next : State T M} {t u : T} {m : M} {situation : T → Situation T M} {k : M → Nat}

theorem State.Counted.of_frame (hcounted : s.Counted m u)
    (hgranted : (next.history m).granted.count u = (s.history m).granted.count u)
    (hreturned : (next.history m).returned.count u = (s.history m).returned.count u)
    (hpassed : next.Passed m u ↔ s.Passed m u) : next.Counted m u := by
  simp only [State.Counted, hgranted, hreturned, hpassed]
  exact hcounted

/-- An entry for `t` in the history of `m'` counts for nobody else and for no other mutex. -/
theorem count_of_other {f : M → History T} {history : History T} {m' : M}
    (entries : History T → List T) (happend : entries history = entries (f m') ++ [t])
    (hother : ¬ (u = t ∧ m = m')) :
    (entries (Function.update f m' history m)).count u = (entries (f m)).count u := by
  by_cases hm : m = m'
  · subst hm
    have hu : t ≠ u := fun hu => hother ⟨hu.symm, rfl⟩
    simp [happend, hu]
  · simp [hm]

/-- Between the grant and the return, `t` has passed. -/
theorem Effect.counted (heffect : Effect s t next)
    (hguarded : ∀ m, ∃ holder, s.Guarded (k m) m holder) (hplaced : s.Placed situation)
    (hmasked : s.Masked) (hcounted : s.Counted m u) : next.Counted m u := by
  cases heffect
  case spin => exact hcounted
  case call c hpc =>
    refine hcounted.of_frame rfl rfl ?_
    by_cases hu : u = t
    · subst hu
      cases c <;> simp [State.Passed, hpc, Call.entry, Pc.asleep]
    · simp [State.Passed, hu]
  case addTail m' hpc =>
    refine hcounted.of_frame rfl rfl ?_
    by_cases hu : u = t
    · subst hu
      by_cases hm : m = m'
      · subst hm
        simp [State.Passed, hpc, Pc.asleep]
      · simp [State.Passed, hpc, Pc.asleep, Ne.symm hm]
    · by_cases hm : m = m'
      · subst hm
        simp [State.Passed, hu]
      · simp [State.Passed, hu, hm]
  case sigwaitinfo m' hpc hpending =>
    refine hcounted.of_frame rfl rfl ?_
    by_cases hu : u = t
    · subst hu
      obtain ⟨m'', hsignalled⟩ := (hplaced.pending u).mp hpending
      simp [State.Passed, hpc, Pc.asleep, hplaced.queue, hsignalled]
    · simp [State.Passed, hu]
  case acquireUnlock m' hpc =>
    by_cases hown : u = t ∧ m = m'
    · obtain ⟨rfl, rfl⟩ := hown
      have hbefore : (s.history m).granted.count u = (s.history m).returned.count u := by
        simpa [State.Counted, State.Passed, hpc, Pc.asleep] using hcounted
      simp [State.Counted, State.Passed, hbefore]
    · refine hcounted.of_frame ?_ (by simp) ?_
      · exact count_of_other History.granted rfl hown
      · by_cases hu : u = t
        · subst hu
          have hm : ¬ m' = m := fun hm => hown ⟨rfl, hm.symm⟩
          simp [State.Passed, hpc, Pc.asleep, hm]
        · simp [State.Passed, hu]
  case acquireDone m' hpc =>
    by_cases hown : u = t ∧ m = m'
    · obtain ⟨rfl, rfl⟩ := hown
      have hbefore : (s.history m).granted.count u = (s.history m).returned.count u + 1 := by
        simpa [State.Counted, State.Passed, hpc] using hcounted
      simp [State.Counted, State.Passed, hbefore, Pc.asleep]
    · refine hcounted.of_frame (by simp) ?_ ?_
      · exact count_of_other History.returned rfl hown
      · by_cases hu : u = t
        · subst hu
          have hm : ¬ m' = m := fun hm => hown ⟨rfl, hm.symm⟩
          simp [State.Passed, hpc, Pc.asleep, hm]
        · simp [State.Passed, hu]
  case delete m' g hpc =>
    obtain ⟨holder, hguarded⟩ := hguarded m'
    obtain ⟨_, _, _, hhead⟩ := hguarded.holder_eq hpc rfl
    have hmem : g ∈ (s.mutex m').queue := List.mem_of_head? hhead
    have hasleep : (s.pc g).asleep = some m' := by
      rw [hplaced.asleep, (hplaced.queue m' g).mp hmem]
      rfl
    have hne : g ≠ t := by
      rintro rfl
      simp [hpc, Pc.asleep] at hasleep
    by_cases hown : u = g ∧ m = m'
    · obtain ⟨rfl, rfl⟩ := hown
      have hdone : s.pc u ≠ .acquire m .done := by
        intro hdone
        simp [hdone, Pc.asleep] at hasleep
      have hbefore : (s.history m).granted.count u = (s.history m).returned.count u := by
        simpa [State.Counted, State.Passed, hdone, hmem] using hcounted
      simp [State.Counted, State.Passed, hbefore, hne, hasleep, (hmasked.nodup m).not_mem_erase]
    · refine hcounted.of_frame ?_ (by simp) ?_
      · exact count_of_other History.granted rfl hown
      · by_cases hu : u = t
        · subst hu
          simp [State.Passed, hpc, Pc.asleep]
        · by_cases hm : m = m'
          · subst hm
            have hug : u ≠ g := fun hug => hown ⟨hug, rfl⟩
            simp [State.Passed, hu, List.mem_erase_of_ne hug]
          · simp [State.Passed, hu, hm]
  all_goals
    refine hcounted.of_frame (by simp) (by simp) ?_
    by_cases hu : u = t
    · subst hu
      simp [State.Passed, *, Pc.asleep]
    · simp [State.Passed, hu]

/-! ## Threads that release what they acquired -/

omit [DecidableEq T] [DecidableEq M] in
/-- The mutex that a releaser has not incremented yet. -/
def Pc.owes : Pc T M → Option M
  | .outside => none
  | .acquire _ _ => none
  | .release m line =>
      match line with
      | .cas | .load | .store _ => some m
      | _ => none

def State.Covered (s : State T M) (m : M) (t : T) : Prop :=
  (s.history m).incremented.count t + (if (s.pc t).owes = some m then 1 else 0) ≤
    (s.history m).returned.count t

theorem Effect.covered (heffect : Effect s t next) (hcovered : s.Covered m u)
    (hcall : s.pc t = .outside → (next.pc t).owes = some m →
      (s.history m).incremented.count t < (s.history m).returned.count t) :
    next.Covered m u := by
  cases heffect
  case spin => exact hcovered
  case call c hpc =>
    by_cases hu : u = t
    · subst hu
      cases c with
      | acquire m' => simpa [State.Covered, Call.entry, hpc, Pc.owes] using hcovered
      | release m' =>
          by_cases hm : m' = m
          · subst hm
            have hlt := hcall hpc (by simp [Call.entry, Pc.owes])
            simpa [State.Covered, Call.entry, Pc.owes] using Nat.succ_le_of_lt hlt
          · simpa [State.Covered, Call.entry, hpc, Pc.owes, hm] using hcovered
    · simpa [State.Covered, hu] using hcovered
  case releaseStore m' S hpc =>
    by_cases hm : m = m'
    · subst hm
      by_cases hu : u = t
      · subst hu
        simpa [State.Covered, hpc, Pc.owes] using hcovered
      · simpa [State.Covered, hu, Ne.symm hu] using hcovered
    · by_cases hu : u = t
      · subst hu
        simpa [State.Covered, hpc, Pc.owes, hm, Ne.symm hm] using hcovered
      · simpa [State.Covered, hu, hm] using hcovered
  case acquireDone m' hpc =>
    have hbefore : (s.history m).incremented.count u ≤ (s.history m).returned.count u :=
      (Nat.le_add_right _ _).trans hcovered
    by_cases hm : m = m'
    · subst hm
      by_cases hu : u = t
      · subst hu
        simpa [State.Covered, Pc.owes] using hbefore.trans (Nat.le_succ _)
      · simpa [State.Covered, hu, Ne.symm hu] using hcovered
    · by_cases hu : u = t
      · subst hu
        simpa [State.Covered, Pc.owes, hm] using hbefore
      · simpa [State.Covered, hu, hm] using hcovered
  all_goals
    by_cases hu : u = t
    · subst hu
      simpa [State.Covered, *, Pc.owes] using hcovered
    · simpa [State.Covered, hu] using hcovered

/-- A grant is never taken back. -/
theorem Effect.granted_isPrefix (heffect : Effect s t next) (m : M) :
    (s.history m).granted <+: (next.history m).granted := by
  cases heffect
  case acquireUnlock m' hpc =>
    by_cases hm : m = m'
    · subst hm
      simp
    · simp [hm]
  case delete m' g hpc =>
    by_cases hm : m = m'
    · subst hm
      simp
    · simp [hm]
  all_goals simp

theorem Effect.returned_cases (heffect : Effect s t next) (m : M) :
    (next.history m).returned = (s.history m).returned ∨
      s.pc t = .acquire m .done ∧ (next.history m).returned = (s.history m).returned ++ [t] := by
  cases heffect
  case acquireDone m' hpc =>
    by_cases hm : m = m'
    · subst hm
      simp [hpc]
    · simp [hm]
  all_goals simp

section Reachable

variable {guard : State T M → T → Call M → Prop}

theorem reachable_counted (hreach : (machine k guard).Reachable s) (m : M) (t : T) :
    s.Counted m t := by
  apply hreach.invariant fun s => s.Counted m t
  · simp [machine, initState, State.Counted, State.Passed, Pc.asleep]
  · intro s label next hreach hcounted hstep
    obtain ⟨situation, hplaced, hmasked⟩ := reachable_placed hreach
    exact (machine_effect hstep).counted (reachable_guarded hreach) hplaced hmasked hcounted

theorem returned_le_granted (hreach : (machine k guard).Reachable s) (m : M) (t : T) :
    (s.history m).returned.count t ≤ (s.history m).granted.count t := by
  rw [reachable_counted hreach m t]
  exact Nat.le_add_right _ _

/-- In its own code a thread has returned from all acquisitions that were granted. -/
theorem outside_granted (hreach : (machine k guard).Reachable s) (m : M)
    (hpc : s.pc t = .outside) :
    (s.history m).granted.count t = (s.history m).returned.count t := by
  have hcounted := reachable_counted hreach m t
  simpa [State.Counted, State.Passed, hpc, Pc.asleep] using hcounted

theorem reachable_covered
    (hguard : ∀ s t, (machine k guard).Reachable s → guard s t (.release m) →
      (s.history m).incremented.count t < (s.history m).granted.count t)
    (hreach : (machine k guard).Reachable s) (t : T) : s.Covered m t := by
  apply hreach.invariant fun s => s.Covered m t
  · simp [machine, initState, State.Covered, Pc.owes]
  · intro s label next hreach hcovered hstep
    apply (machine_effect hstep).covered hcovered
    intro hpc howes
    obtain ⟨hallowed, hact⟩ := hstep
    cases label with
    | call t c =>
        rw [← outside_granted hreach m hpc]
        simp only [State.act, Option.ite_none_right_eq_some] at hact
        obtain ⟨_, heq⟩ := hact
        cases heq
        cases c with
        | acquire m' => simp [Label.thread, Call.entry, Pc.owes] at howes
        | release m' =>
            obtain rfl : m' = m := by simpa [Label.thread, Call.entry, Pc.owes] using howes
            exact hguard s t hreach hallowed
    | step t =>
        simp [State.act, s.step_outside t hpc] at hact

section One

variable (hone : k m = 1)
  (hguard : ∀ s t, (machine k guard).Reachable s → guard s t (.release m) →
    (s.history m).incremented.count t < (s.history m).granted.count t)

include hguard

theorem incremented_le_granted (hreach : (machine k guard).Reachable s) (t : T) :
    (s.history m).incremented.count t ≤ (s.history m).granted.count t := by
  have hcovered := reachable_covered hguard hreach t
  exact (Nat.le_add_right _ _).trans (hcovered.trans (returned_le_granted hreach m t))

include hone

/-- At most one thread has a mutex that it was granted and has not released. -/
theorem one_holder (hreach : (machine k guard).Reachable s)
    (ht : (s.history m).incremented.count t < (s.history m).granted.count t)
    (hu : (s.history m).incremented.count u < (s.history m).granted.count u) : t = u := by
  have hle := granted_length_le hreach m
  rw [hone, Nat.add_comm] at hle
  exact holder_unique (incremented_le_granted hguard hreach) hle ht hu

/-- The calls return in the order of the grants. -/
theorem returned_isPrefix (hreach : (machine k guard).Reachable s) :
    (s.history m).returned <+: (s.history m).granted := by
  apply hreach.invariant fun s => (s.history m).returned <+: (s.history m).granted
  · simp [machine, initState]
  · intro s label next hreach hinitial hstep
    have heffect := machine_effect hstep
    have hgrows := heffect.granted_isPrefix m
    rcases heffect.returned_cases m with hsame | ⟨hdone, happend⟩
    · rw [hsame]
      exact hinitial.trans hgrows
    · -- the only grant that has not returned is that of the thread at its return
      have hlt : (s.history m).returned.count label.thread <
          (s.history m).granted.count label.thread := by
        rw [reachable_counted hreach m label.thread, if_pos (.inl hdone)]
        exact Nat.lt_succ_self _
      have hle : (s.history m).granted.length ≤ (s.history m).returned.length + 1 := by
        have hgranted := granted_length_le hreach m
        have hincremented : (s.history m).incremented.length ≤ (s.history m).returned.length := by
          apply length_le_of_count_le
          intro v
          exact (Nat.le_add_right _ _).trans (reachable_covered hguard hreach v)
        omega
      rw [happend, ← eq_concat_of_isPrefix hinitial hle hlt]
      exact hgrows

end One

/-- While the spinlock is free the queue is as long as `S` says, the queue that a releaser
looks at is not empty, and grants are covered by permits. If threads release only what they
were granted, at most one has a mutex that was initialised with 1, and has it once. -/
theorem semaphore_safety (hreach : (machine k guard).Reachable s) (m : M) :
    ((s.mutex m).hold = 0 → ((s.mutex m).queue.length : Int) = max 0 (-(s.mutex m).S)) ∧
      (∀ t, s.pc t = .release m .isEmpty → (s.mutex m).queue ≠ []) ∧
      (s.history m).granted.length ≤ k m + (s.history m).incremented.length ∧
      (k m = 1 →
        (∀ s t, (machine k guard).Reachable s → guard s t (.release m) →
          (s.history m).incremented.count t < (s.history m).granted.count t) →
        (∀ t, (s.history m).incremented.count t ≤ (s.history m).granted.count t ∧
          (s.history m).granted.count t ≤ (s.history m).incremented.count t + 1) ∧
          ∀ t u, (s.history m).incremented.count t < (s.history m).granted.count t →
            (s.history m).incremented.count u < (s.history m).granted.count u → t = u) := by
  refine ⟨queue_length hreach, fun t hpc => queue_ne_nil hreach hpc, granted_length_le hreach m,
    ?_⟩
  intro hone hguard
  have hcovered := incremented_le_granted hguard hreach
  have hle := granted_length_le hreach m
  rw [hone, Nat.add_comm] at hle
  refine ⟨fun t => ⟨hcovered t, count_le_succ_of_covered hcovered hle t⟩, ?_⟩
  intro t u ht hu
  exact one_holder hone hguard hreach ht hu

/-- The calls return in the order in which they decremented `S`. -/
theorem first_come_first_served (hone : k m = 1)
    (hguard : ∀ s t, guard s t (.release m) →
      (s.history m).incremented.count t < (s.history m).returned.count t)
    (hreach : (machine k guard).Reachable s) :
    (s.history m).returned <+: (s.history m).decremented := by
  have hgranted : ∀ s t, (machine k guard).Reachable s → guard s t (.release m) →
      (s.history m).incremented.count t < (s.history m).granted.count t :=
    fun s t hreach hallowed => (hguard s t hallowed).trans_le (returned_le_granted hreach m t)
  exact (returned_isPrefix hone hgranted hreach).trans (granted_isPrefix hreach m)

end Reachable

/-- Thread 1 was granted the mutex and thread 0 has given it up. -/
theorem semaphore_safety_contended :
    (contended.history ()).incremented.count 0 = (contended.history ()).granted.count 0 ∧
      (contended.history ()).incremented.count 1 < (contended.history ()).granted.count 1 ∧
      ∀ t, (contended.history ()).incremented.count t < (contended.history ()).granted.count t →
        t = 1 := by
  have hone : (contended.history ()).incremented.count 1 <
      (contended.history ()).granted.count 1 := by decide +kernel
  refine ⟨by decide +kernel, hone, ?_⟩
  intro t ht
  apply ((semaphore_safety contended_reachable ()).2.2.2 rfl ?_).2 t 1 ht hone
  intro s t hreach hallowed
  exact hallowed.trans_le (returned_le_granted hreach () t)

theorem first_come_first_served_contended :
    (contended.history ()).returned <+: (contended.history ()).decremented :=
  first_come_first_served rfl (fun _ _ hallowed => hallowed) contended_reachable

end OperatingSystem.Locks
