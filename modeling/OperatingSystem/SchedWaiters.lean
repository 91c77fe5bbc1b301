import OperatingSystem.SchedQueues

/-!
# Which waiter is woken

`prio_release` looks for a waiter of the highest priority. It is the release callback of
`pcp_scheduler` and `pip_scheduler`; the one of `prio_scheduler` is `fcfs_release`, which
wakes the first waiter, whatever its priority.
-/

namespace OperatingSystem.Sched

variable {n : Nat}

/-- The release callback is called in state `s` on `r`, for the running process `p`. -/
def Config.Releases (c : Config n) (s : Sim n) (p : Fin n) (r : Fin NR_RESOURCES) : Prop :=
  ∃ kept rs todo, c.pc = .release p kept (rs :: todo) ∧ rs.countDown.duration = 0 ∧
    s = c.sim.setHolding p (kept ++ rs.countDown :: todo) ∧ r = rs.resourceId

/-- The release callback moves one waiter to the ready queue, and no other waiter has a
higher priority. -/
def Scheduler.WakesHighest (sched : Scheduler n) (s : Sim n) (p : Fin n)
    (r : Fin NR_RESOURCES) : Prop :=
  ∃ after waiter, sched.release s p r = .ok after ∧ waiter ∈ (s.resources r).waitqueue ∧
    after.readyqueue = s.readyqueue ++ [waiter] ∧
    ∀ other ∈ (s.resources r).waitqueue, s.prio other ≤ s.prio waiter

/-- The schedulers that run a process of the highest priority. -/
def prioritySchedulers (n : Nat) : List (Scheduler n) :=
  [prioScheduler, pcpScheduler, pipScheduler]

/-- What the state of a call keeps of the loop head. -/
structure Sim.Called (s : Sim n) (p : Fin n) (r : Fin NR_RESOURCES) : Prop where
  queued : s.Queued
  running : (s.procs p).status = .running
  owner : (s.resources r).owner = some p

theorem Config.Releases.called {c : Config n} (hwf : c.WellFormed) {s : Sim n} {p : Fin n}
    {r : Fin NR_RESOURCES} (hcall : c.Releases s p r) : s.Called p r := by
  obtain ⟨kept, rs, todo, hpc, -, rfl, rfl⟩ := hcall
  obtain ⟨hqueued, howned, hshaped⟩ := hwf
  rw [hpc] at hshaped
  obtain ⟨hruns, hholding⟩ := hshaped
  refine ⟨setHolding_queued hqueued hruns _, ?_, ?_⟩
  · rw [Sim.setHolding_frame]
    exact hruns.2
  · exact (howned.owner _ p).mpr (by simp [Process.held, hholding])

section Call

variable {s : Sim n} {p : Fin n} {r : Fin NR_RESOURCES} (hcalled : s.Called p r)

include hcalled

/-- The running process does not wait. -/
theorem Sim.Called.ne_waiter {waiter : Fin n} (hwait : waiter ∈ (s.resources r).waitqueue) :
    waiter ≠ p := by
  rintro rfl
  exact hcalled.queued.not_linked hcalled.running (.inr (.inr ⟨r, hwait⟩))

/-- Waking a waiter succeeds, whatever the priorities are. -/
theorem Sim.Called.wake {waiter : Fin n} (hwait : waiter ∈ (s.resources r).waitqueue)
    (prios : Fin n → Nat) : ∃ after,
      ((s.setPrios prios).setOwner r none).wake r waiter = .ok after ∧
        after.readyqueue = s.readyqueue ++ [waiter] :=
  ⟨_, if_pos (hcalled.queued.wait r waiter hwait).1, rfl⟩

/-- A scheduler that wakes a certain waiter wakes a highest one exactly if that one is. -/
theorem Sim.Called.wakesHighest_iff {sched : Scheduler n} {waiter : Fin n}
    {prios : Fin n → Nat} (hwait : waiter ∈ (s.resources r).waitqueue)
    (hrelease : sched.release s p r = ((s.setPrios prios).setOwner r none).wake r waiter) :
    sched.WakesHighest s p r ↔
      ∀ other ∈ (s.resources r).waitqueue, s.prio other ≤ s.prio waiter := by
  obtain ⟨after, hwake, hready⟩ := hcalled.wake hwait prios
  constructor
  · rintro ⟨after', waiter', hrelease', -, hready', hhighest⟩
    rw [hrelease, hwake] at hrelease'
    obtain rfl := Except.ok.inj hrelease'
    obtain rfl : waiter = waiter' := by simpa [hready] using hready'
    exact hhighest
  · intro hhighest
    exact ⟨after, waiter, hrelease.trans hwake, hwait, hready, hhighest⟩

theorem fcfsRelease_wakesHighest {sched : Scheduler n} (hrelease : sched.release = fcfsRelease)
    {first : Fin n} {rest : List (Fin n)} (hqueue : (s.resources r).waitqueue = first :: rest) :
    sched.WakesHighest s p r ↔ ∀ other ∈ rest, s.prio other ≤ s.prio first := by
  have hmem : first ∈ (s.resources r).waitqueue := hqueue ▸ List.mem_cons_self
  have hwakes : sched.release s p r = ((s.setPrios s.prio).setOwner r none).wake r first := by
    rw [hrelease]
    exact fcfsRelease_wake s p r first rest hcalled.owner hqueue
  rw [hcalled.wakesHighest_iff hmem hwakes, hqueue]
  simp

theorem prioRelease_wakesHighest {sched : Scheduler n} (hrelease : sched.release = prioRelease)
    (hwaiters : (s.resources r).waitqueue ≠ []) : sched.WakesHighest s p r := by
  obtain ⟨first, rest, hqueue⟩ := List.exists_cons_of_ne_nil hwaiters
  let freed := (s.setPrios (pcpPolicy.released s p)).setOwner r none
  have hmem : pcpPolicy.waiter freed first rest ∈ (s.resources r).waitqueue := by
    rw [hqueue]
    exact scanMax_mem_of_mem freed.prio List.mem_cons_self
  have hwakes : sched.release s p r = freed.wake r (pcpPolicy.waiter freed first rest) := by
    rw [hrelease]
    exact prioRelease_wake s p r first rest hcalled.owner hqueue
  rw [hcalled.wakesHighest_iff hmem hwakes]
  -- the release changes the priority of the running process only
  have hsame : ∀ waiter ∈ (s.resources r).waitqueue, freed.prio waiter = s.prio waiter := by
    intro waiter hwait
    exact Function.update_of_ne (hcalled.ne_waiter hwait) _ _
  intro other hother
  rw [← hsame other hother, ← hsame _ hmem]
  exact (le_scanMax freed.prio first (first :: rest)).2 other (hqueue ▸ hother)

end Call

theorem reachable_called {sched : Scheduler n} (hsched : sched ∈ prioritySchedulers n)
    {script : Script n} {c : Config n} (hreach : (sched.machine script).Reachable c) {s : Sim n}
    {p : Fin n} {r : Fin NR_RESOURCES} (hcall : c.Releases s p r) : s.Called p r := by
  have hmem : sched ∈ schedulers n := List.mem_cons_of_mem _ hsched
  obtain ⟨policy, hlaw⟩ := schedulers_lawful hmem
  exact hcall.called (reachable_wellFormed hlaw hreach)

/-- **The most important waiter is woken**, except that `prio_scheduler` wakes it exactly if
it is the first waiter. -/
theorem highest_woken {sched : Scheduler n} (hsched : sched ∈ prioritySchedulers n)
    {script : Script n} {c : Config n} (hreach : (sched.machine script).Reachable c) {s : Sim n}
    {p : Fin n} {r : Fin NR_RESOURCES} (hcall : c.Releases s p r) {first : Fin n}
    {rest : List (Fin n)} (hqueue : (s.resources r).waitqueue = first :: rest) :
    sched.WakesHighest s p r ↔
      (sched = prioScheduler → ∀ other ∈ rest, s.prio other ≤ s.prio first) := by
  have hcalled := reachable_called hsched hreach hcall
  have hwaiters : (s.resources r).waitqueue ≠ [] := by simp [hqueue]
  have hfirst : prioScheduler.WakesHighest s p r ↔ _ := fcfsRelease_wakesHighest hcalled rfl hqueue
  simp only [prioritySchedulers, List.mem_cons, List.not_mem_nil, or_false] at hsched
  constructor
  · rintro hwakes rfl
    exact hfirst.mp hwakes
  · intro hhighest
    rcases hsched with rfl | rfl | rfl
    · exact hfirst.mpr (hhighest rfl)
    · exact prioRelease_wakesHighest hcalled rfl hwaiters
    · exact prioRelease_wakesHighest hcalled rfl hwaiters

/-- A process that holds a resource while two others come to request it, the more important
one last. -/
def outranked : Script 3 :=
  ![⟨1, 0, 6, 1, [⟨0, 0, 4⟩]⟩, ⟨2, 1, 2, 5, [⟨0, 0, 1⟩]⟩, ⟨3, 2, 2, 10, [⟨0, 0, 1⟩]⟩]

/-- The call of the first release on `outranked`. -/
def outrankedCall (sched : Scheduler 3) : Sim 3 :=
  (sched.next^[19] outranked.start).sim.setHolding 0 [⟨⟨0, 0, 0⟩, 0⟩]

/-- `pip_scheduler` wakes the last waiter there. -/
theorem highest_woken_outranked : pipScheduler.WakesHighest (outrankedCall pipScheduler) 0 0 := by
  have hcall : (pipScheduler.next^[19] outranked.start).Releases (outrankedCall pipScheduler) 0 0 :=
    ⟨[], ⟨⟨0, 0, 1⟩, 0⟩, [], by decide +kernel, by decide, rfl, rfl⟩
  have hqueue : ((outrankedCall pipScheduler).resources 0).waitqueue = [1, 2] := by decide +kernel
  refine (highest_woken (by simp [prioritySchedulers]) (Machine.reachable_iterate _ _ 19) hcall
    hqueue).mpr fun heq => ?_
  have hready := congrArg (fun sched => (sched.next^[20] outranked.start).sim.readyqueue) heq
  exact absurd hready (by decide +kernel)

/-- `prio_scheduler` wakes the first one. -/
theorem outranked_not_woken : ¬ ∀ c, (prioScheduler.machine outranked).Reachable c →
    ∀ s p r, c.Releases s p r → (s.resources r).waitqueue ≠ [] →
      prioScheduler.WakesHighest s p r := by
  intro hclaim
  have hreach : (prioScheduler.machine outranked).Reachable
      (prioScheduler.next^[19] outranked.start) := Machine.reachable_iterate _ _ 19
  have hcall : (prioScheduler.next^[19] outranked.start).Releases
      (outrankedCall prioScheduler) 0 0 :=
    ⟨[], ⟨⟨0, 0, 1⟩, 0⟩, [], by decide +kernel, by decide, rfl, rfl⟩
  have hqueue : ((outrankedCall prioScheduler).resources 0).waitqueue = [1, 2] := by
    decide +kernel
  have hcalled := reachable_called (by simp [prioritySchedulers]) hreach hcall
  have hwakes := hclaim _ hreach _ 0 0 hcall (by simp [hqueue])
  have hhighest := (fcfsRelease_wakesHighest hcalled rfl hqueue).mp hwakes 2 (by simp)
  exact absurd hhighest (by decide +kernel)

end OperatingSystem.Sched
