import OperatingSystem.MutexOrder

/-!
# When no thread can go on

A thread that is inside one of the two functions can take a step, unless it waits in
`sigwaitinfo` for a signal that it does not have. When all threads are in their own code,
or wait like this, or find `hold` set, then in fact `hold` is not set anywhere, and the
threads that wait are on the queues of mutexes that have no permit left.
-/

namespace OperatingSystem.Locks

variable {T M : Type*} [DecidableEq T] [DecidableEq M]

namespace State

variable (s : State T M) (t : T)

/-- The compare-and-swap of `t` fails. -/
def Spins : Prop :=
  ∃ m, (s.pc t = .acquire m .cas ∨ s.pc t = .release m .cas) ∧ (s.mutex m).hold ≠ 0

/-- `t` waits for a signal. -/
def Sleeps : Prop := (∃ m, s.pc t = .acquire m .sigwaitinfo) ∧ s.pending t = false

def Stuck : Prop := s.pc t = .outside ∨ s.Spins t ∨ s.Sleeps t

end State

variable {s next : State T M} {t u : T} {m : M} {k : M → Nat}
  {guard : State T M → T → Call M → Prop}

/-- Whoever does not sleep can take a step. -/
theorem step_isSome (hreach : (machine k guard).Reachable s) (hpc : s.pc t ≠ .outside)
    (hawake : ¬ s.Sleeps t) : ∃ next, s.step t = some next := by
  obtain ⟨situation, hplaced, hmasked⟩ := reachable_placed hreach
  rw [State.step, if_neg (by simp [hmasked.alive])]
  cases hline : s.pc t with
  | outside => exact absurd hline hpc
  | acquire m line =>
      cases line with
      | sigwaitinfo =>
          have hpending : s.pending t = true := by
            by_contra hnot
            exact hawake ⟨⟨m, hline⟩, by simpa using hnot⟩
          exact ⟨_, if_pos hpending⟩
      | _ => exact ⟨_, rfl⟩
  | release m line =>
      cases line with
      | first =>
          obtain ⟨holder, hguarded⟩ := reachable_guarded hreach m
          obtain ⟨hguarded, hpermitting, hS⟩ := hguarded.holder_eq hline rfl
          obtain ⟨g, hqueue, _⟩ := hpermitting.wake hguarded.value hS
          exact ⟨s.goto t (.release m (.delete g)), by simp [State.releaseMutex, hqueue]⟩
      | _ => exact ⟨_, rfl⟩

/-! ## All threads are stuck -/

omit [DecidableEq T] [DecidableEq M] in
theorem State.Stuck.inside (hstuck : s.Stuck t) : (s.pc t).inside = none := by
  rcases hstuck with hpc | ⟨m, hpc | hpc, _⟩ | ⟨⟨m, hpc⟩, _⟩
  all_goals
    rw [hpc]
    rfl

section Stuck

variable (hreach : (machine k guard).Reachable s) (hstuck : ∀ t, s.Stuck t)

include hreach hstuck

theorem stuck_guarded (m : M) : s.Guarded (k m) m none := by
  obtain ⟨holder, hguarded⟩ := reachable_guarded hreach m
  cases holder with
  | none => exact hguarded
  | some t =>
      have hinside := (hguarded.inside t).mpr rfl
      rw [(hstuck t).inside] at hinside
      cases hinside

theorem stuck_queued (hpc : s.pc t ≠ .outside) :
    ∃ m, s.pc t = .acquire m .sigwaitinfo ∧ t ∈ (s.mutex m).queue := by
  obtain ⟨situation, hplaced, hmasked⟩ := reachable_placed hreach
  rcases hstuck t with houtside | ⟨m, _, hhold⟩ | ⟨⟨m, hsleeps⟩, hpending⟩
  · exact absurd houtside hpc
  · exact absurd (stuck_guarded hreach hstuck m).hold hhold
  · refine ⟨m, hsleeps, ?_⟩
    have hasleep := hplaced.asleep t
    rw [hsleeps] at hasleep
    cases hsituation : situation t with
    | away =>
        rw [hsituation] at hasleep
        cases hasleep
    | queued m' =>
        rw [hsituation] at hasleep
        obtain rfl : m = m' := Option.some.inj hasleep
        exact (hplaced.queue m t).mpr hsituation
    | dequeued m' u =>
        -- the releaser is not stuck
        have hsignals := (hplaced.signals u t).mpr ⟨m', hsituation⟩
        rcases hstuck u with hu | ⟨m, hu | hu, _⟩ | ⟨⟨m, hu⟩, _⟩
        all_goals
          rw [hu] at hsignals
          cases hsignals
    | signalled m' =>
        rw [(hplaced.pending t).mpr ⟨m', hsituation⟩] at hpending
        cases hpending

/-- All grants have returned. -/
theorem stuck_granted (m : M) (t : T) :
    (s.history m).granted.count t = (s.history m).returned.count t := by
  by_cases hpc : s.pc t = .outside
  · exact outside_granted hreach m hpc
  · obtain ⟨m', hsleeps, hqueue⟩ := stuck_queued hreach hstuck hpc
    have hcounted := reachable_counted hreach m t
    have hnot : ¬ s.Passed m t := by
      rintro (hdone | ⟨hasleep, hnotin⟩)
      · simp [hsleeps] at hdone
      · rw [hsleeps] at hasleep
        obtain rfl : m' = m := Option.some.inj hasleep
        exact hnotin hqueue
    rwa [State.Counted, if_neg hnot] at hcounted

/-- A mutex with a queue has no permit left. -/
theorem stuck_permits (hqueue : t ∈ (s.mutex m).queue) :
    (s.history m).granted.length = k m + (s.history m).incremented.length := by
  have hshows := (stuck_guarded hreach hstuck m).idle rfl
  rw [hshows.queue] at hqueue
  rw [hshows.granted]
  exact Semaphore.granted_length_of_waiting _ hqueue

end Stuck

end OperatingSystem.Locks
