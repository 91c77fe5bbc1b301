import OperatingSystem.SchedLawful

/-!
# A release in full

`prio_release` is the release callback of `pcp_scheduler` and of `pip_scheduler`. It changes one
priority, one resource and, if somebody waits for the resource, the first of the most important
waiters, which moves to the tail of the ready queue.
-/

namespace OperatingSystem.Sched

variable {n : Nat}

/-- The priorities after the release by `p`, by which it chooses a waiter. -/
def Sim.restored (s : Sim n) (p q : Fin n) : Nat :=
  if q = p then (s.procs p).prioOrig else (s.procs q).prio

/-- `after` is `s` with the priority of `p` restored, `r` without owner, and the process in
`woken` made ready behind the others; the queue of `r` is left open. -/
structure Sim.Released (s after : Sim n) (p : Fin n) (r : Fin NR_RESOURCES)
    (woken : Option (Fin n)) : Prop where
  procs : ∀ q, after.procs q =
    { s.procs q with
      prio := s.restored p q
      status := if some q = woken then .ready else (s.procs q).status }
  owner : (after.resources r).owner = none
  resources : ∀ other, other ≠ r → after.resources other = s.resources other
  readyqueue : after.readyqueue = s.readyqueue ++ woken.toList
  forkqueue : after.forkqueue = s.forkqueue
  current : after.current = s.current
  ticks : after.ticks = s.ticks

/-- The state before a waiter is looked for. -/
def Sim.unowned (s : Sim n) (p : Fin n) (r : Fin NR_RESOURCES) : Sim n :=
  (s.setPrios (pcpPolicy.released s p)).setOwner r none

@[simp] theorem unowned_waitqueue (s : Sim n) (p : Fin n) (r other : Fin NR_RESOURCES) :
    ((s.unowned p r).resources other).waitqueue = (s.resources other).waitqueue := by
  rcases eq_or_ne other r with rfl | hne
  · simp [Sim.unowned, Sim.setOwner, Sim.setPrios]
  · simp [Sim.unowned, Sim.setOwner, Sim.setPrios, hne]

theorem unowned_prio (s : Sim n) (p : Fin n) (r : Fin NR_RESOURCES) (q : Fin n) :
    ((s.unowned p r).procs q).prio = s.restored p q := by
  simp [Sim.unowned, Sim.setOwner, Sim.setPrios, pcpPolicy, Sim.restored, Function.update_apply,
    Sim.prio]

theorem unowned_released (s : Sim n) (p : Fin n) (r : Fin NR_RESOURCES) :
    s.Released (s.unowned p r) p r none where
  procs := by
    intro q
    have hprio := unowned_prio s p r q
    simp only [Sim.unowned, Sim.setOwner, Sim.setPrios] at hprio ⊢
    simp [hprio]
  owner := by simp [Sim.unowned, Sim.setOwner]
  resources := fun other hne => by simp [Sim.unowned, Sim.setOwner, Sim.setPrios, hne]
  readyqueue := (List.append_nil _).symm
  forkqueue := rfl
  current := rfl
  ticks := rfl

/-- To move a waiter to the ready queue changes its status and the two queues. -/
theorem moveToReady_released {s freed : Sim n} {p : Fin n} {r : Fin NR_RESOURCES}
    (hfreed : s.Released freed p r none) (waiter : Fin n) :
    s.Released (freed.moveToReady r waiter) p r (some waiter) where
  procs := by
    intro q
    have hprocs := hfreed.procs q
    rcases eq_or_ne q waiter with rfl | hne
    · simp [Sim.moveToReady, Sim.setWaitqueue, Sim.setStatus, Sim.setProcess, hprocs]
    · simp [Sim.moveToReady, Sim.setWaitqueue, Sim.setStatus, Sim.setProcess, hprocs, hne]
  owner := by
    have howner := hfreed.owner
    simp [Sim.moveToReady, Sim.setWaitqueue, Sim.setStatus, Sim.setProcess, howner]
  resources := fun other hne => by
    have hother := hfreed.resources other hne
    simp [Sim.moveToReady, Sim.setWaitqueue, Sim.setStatus, Sim.setProcess, hother, hne]
  readyqueue := by
    have hready := hfreed.readyqueue
    simp [Sim.moveToReady, Sim.setWaitqueue, Sim.setStatus, Sim.setProcess, hready]
  forkqueue := hfreed.forkqueue
  current := hfreed.current
  ticks := hfreed.ticks

section Owned

variable {s : Sim n} {p : Fin n} {r : Fin NR_RESOURCES} (howned : (s.resources r).owner = some p)
  (hwaiting : ∀ q ∈ (s.resources r).waitqueue, (s.procs q).status = .wait)
include howned hwaiting

/-- **`prio_release` in full.** If nobody waits, nobody is woken; else the queue of the resource
is split at the process that is woken: all before it are less important, and none behind it is
more important. -/
theorem prioRelease_in_full :
    ∃ after woken, prioRelease s p r = .ok after ∧ s.Released after p r woken ∧
      match woken with
      | none => (s.resources r).waitqueue = [] ∧ (after.resources r).waitqueue = []
      | some waiter => ∃ before behind,
          (s.resources r).waitqueue = before ++ waiter :: behind ∧
          (after.resources r).waitqueue = before ++ behind ∧
          (∀ q ∈ before, s.restored p q < s.restored p waiter) ∧
          ∀ q ∈ behind, s.restored p q ≤ s.restored p waiter := by
  cases hqueue : (s.resources r).waitqueue with
  | nil =>
      refine ⟨s.unowned p r, none, prioRelease_idle s p r howned hqueue, unowned_released s p r,
        rfl, ?_⟩
      rw [unowned_waitqueue, hqueue]
  | cons first rest =>
      let freed := s.unowned p r
      let waiter := scanMax freed.prio first (first :: rest)
      have hrelease : prioRelease s p r = freed.wake r waiter :=
        prioRelease_wake s p r first rest howned hqueue
      have hmem : waiter ∈ (s.resources r).waitqueue := by
        rw [hqueue]
        exact scanMax_mem_of_mem freed.prio List.mem_cons_self
      have hstatus : (freed.procs waiter).status = .wait := hwaiting waiter hmem
      have hwake : freed.wake r waiter = .ok (freed.moveToReady r waiter) := if_pos hstatus
      obtain ⟨before, behind, hsplit, hbefore, hbehind⟩ :=
        scanMax_firstGreatest freed.prio first rest
      change first :: rest = before ++ waiter :: behind at hsplit
      have hprio : ∀ q, freed.prio q = s.restored p q := unowned_prio s p r
      simp only [hprio] at hbefore hbehind
      have hnot : waiter ∉ before := fun hin => lt_irrefl _ (hbefore waiter hin)
      have hleft : ((freed.moveToReady r waiter).resources r).waitqueue = before ++ behind := by
        have hfreed : (freed.resources r).waitqueue = before ++ waiter :: behind := by
          rw [unowned_waitqueue, hqueue, hsplit]
        simp [Sim.moveToReady, Sim.setWaitqueue, Sim.setStatus, Sim.setProcess, hfreed,
          List.erase_append_right _ hnot]
      exact ⟨_, some waiter, hrelease.trans hwake,
        moveToReady_released (unowned_released s p r) waiter, before, behind, hsplit, hleft,
        hbefore, hbehind⟩

end Owned

/-- A process with an inherited priority owns a resource that three others wait for. -/
def contested : Sim 4 where
  procs := ![⟨1, .running, 2, 5, 9, 2, 0, [], [⟨⟨0, 0, 0⟩, 0⟩]⟩, ⟨2, .wait, 0, 3, 4, 4, 0, [], []⟩,
    ⟨3, .wait, 0, 3, 9, 9, 1, [], []⟩, ⟨4, .wait, 0, 3, 9, 9, 1, [], []⟩]
  forkqueue := []
  readyqueue := []
  resources := Function.update (fun _ => ⟨none, []⟩) 0 ⟨some 0, [1, 2, 3]⟩
  current := some 0
  ticks := 2

theorem prioRelease_in_full_contested : ∃ after waiter before behind,
    prioRelease contested 0 0 = .ok after ∧ contested.Released after 0 0 (some waiter) ∧
      [1, 2, 3] = before ++ waiter :: behind ∧
      (after.resources 0).waitqueue = before ++ behind := by
  have hqueue : (contested.resources 0).waitqueue = [1, 2, 3] := rfl
  have hwaiting : ∀ q ∈ (contested.resources 0).waitqueue, (contested.procs q).status = .wait := by
    decide
  obtain ⟨after, woken, hrelease, hreleased, hwoken⟩ :=
    prioRelease_in_full (s := contested) (p := 0) (r := 0) rfl hwaiting
  rw [hqueue] at hwoken
  cases woken with
  | none => cases hwoken.1
  | some waiter =>
      obtain ⟨before, behind, hsplit, hleft, -⟩ := hwoken
      exact ⟨after, waiter, before, behind, hrelease, hreleased, hsplit, hleft⟩

end OperatingSystem.Sched
