import OperatingSystem.SchedInheritance

/-!
# Borrowed priorities

`pcp_acquire` raises the process that gets the resource, and `pip_acquire` the process
that owns it. `prio_release` gives the process its own priority back. So a priority is
borrowed only while something is owned.
-/

namespace OperatingSystem.Sched

variable {n : Nat} {policy : Policy n}

/-- A policy that raises owners only, and takes back what a process has borrowed when it
releases. -/
structure Policy.Lends (policy : Policy n) : Prop where
  granted : ∀ (s : Sim n) (p q : Fin n), q ≠ p → policy.granted s p q = s.prio q
  blocked : ∀ (s : Sim n) (p owner q : Fin n), q ≠ owner → policy.blocked s p owner q = s.prio q
  released : ∀ (s : Sim n) (p : Fin n),
    policy.released s p = Function.update s.prio p (s.procs p).prioOrig

theorem pcpPolicy_lends : (pcpPolicy : Policy n).Lends where
  granted := fun _ _ _ hq => Function.update_of_ne hq _ _
  blocked := fun _ _ _ _ _ => rfl
  released := fun _ _ => rfl

theorem pipPolicy_lends : (pipPolicy : Policy n).Lends where
  granted := fun _ _ _ _ => rfl
  blocked := fun _ _ _ _ hq => Function.update_of_ne hq _ _
  released := fun _ _ => rfl

/-- A process that owns nothing has its own priority. -/
def Sim.Returned (s : Sim n) : Prop :=
  ∀ q, (∀ r, (s.resources r).owner ≠ some q) → s.prio q = (s.procs q).prioOrig

section Steps

variable {s : Sim n} {p : Fin n} (hlends : policy.Lends) (hreturned : s.Returned)

include hreturned

theorem Sim.Returned.turn {after : Sim n} {next : Option (Fin n)} (hqueued : s.Queued)
    (hturn : Turn policy (__forkOnSchedule s) next after) : after.Returned := by
  intro q hidle
  have hresources : after.resources = s.resources := hturn.resources
  rw [hresources] at hidle
  rw [Sim.prio, hturn.procs hqueued]
  exact hreturned q hidle

include hlends

theorem Sim.Returned.granted {rs : ResourceSchedule} {pending : List ResourceSchedule}
    (hfree : (s.resources rs.resourceId).owner = none) :
    (s.granted p (policy.granted s p) rs pending).Returned := by
  intro q hidle
  have hne : q ≠ p := by
    rintro rfl
    exact hidle rs.resourceId (by simp [s.granted_owner])
  have hbefore : ∀ r, (s.resources r).owner ≠ some q := by
    intro r
    by_cases hr : r = rs.resourceId
    · simp [hr, hfree]
    · have hother := hidle r
      rwa [s.granted_owner, if_neg hr] at hother
  rw [s.granted_prio, hlends.granted s p q hne, s.granted_frame]
  exact hreturned q hbefore

theorem Sim.Returned.blocked {owner : Fin n} {r : Fin NR_RESOURCES}
    (howned : (s.resources r).owner = some owner) :
    (s.blocked p (policy.blocked s p owner) r).Returned := by
  intro q hidle
  simp only [s.blocked_owner] at hidle
  have hne : q ≠ owner := by
    rintro rfl
    exact hidle r howned
  rw [s.blocked_prio, hlends.blocked s p owner q hne, s.blocked_frame]
  exact hreturned q hidle

theorem Sim.Returned.freed {r : Fin NR_RESOURCES} {holding rest : List ResourceSchedule}
    {prios : Fin n → Nat} (hprios : prios = policy.released (s.setHolding p holding) p)
    (howner : (s.resources r).owner = some p) : (s.freed p prios r rest).Returned := by
  intro q hidle
  rw [s.freed_prio, hprios, hlends.released, s.freed_frame]
  by_cases hq : q = p
  · subst hq
    rw [Function.update_self, s.setHolding_frame]
  · rw [Function.update_of_ne hq, s.setHolding_prio]
    refine hreturned q fun r' => ?_
    by_cases hr : r' = r
    · rw [hr, howner]
      exact fun heq => hq (Option.some.inj heq).symm
    · have hother := hidle r'
      rwa [s.freed_owner, if_neg hr] at hother

end Steps

/-- No step leaves a borrowed priority behind. -/
theorem Effect.returned {c next : Config n} (hlends : policy.Lends) (hwf : c.WellFormed)
    (heffect : Effect policy c next) (hreturned : c.sim.Returned) : next.sim.Returned := by
  cases heffect with
  | finish hturn | dispatch hturn => exact hreturned.turn hwf.queued hturn
  | @idle s after hturn =>
      intro q hidle
      exact hreturned.turn hwf.queued hturn q hidle
  | refuse | skip | tick | finished | failed => exact hreturned
  | grant _ hfree => exact hreturned.granted hlends hfree
  | block _ howned => exact hreturned.blocked hlends howned
  | @grow s p =>
      intro q hidle
      rw [s.grow_prio, s.grow_frame]
      exact hreturned q hidle
  | @keep s p =>
      intro q hidle
      rw [s.setHolding_prio, s.setHolding_frame]
      exact hreturned q hidle
  | drop _ hprios howner => exact hreturned.freed hlends hprios howner
  | @wake s p _ _ _ _ _ rs prios _ hprios howner =>
      intro q hidle
      simp only [Sim.moveToReady_owner] at hidle
      rw [Sim.moveToReady_prio, Sim.moveToReady_frame]
      exact hreturned.freed hlends hprios howner q hidle

/-- The schedulers that lend priorities. -/
def lendingSchedulers (n : Nat) : List (Scheduler n) := [pcpScheduler, pipScheduler]

/-- **No borrowed priority leaks.** In every state of every run a process that owns no
resource has its own priority. -/
theorem borrowed_returned {sched : Scheduler n} (hsched : sched ∈ lendingSchedulers n)
    {script : Script n} {c : Config n} (hreach : (sched.machine script).Reachable c) {p : Fin n}
    (hidle : ∀ r, (c.sim.resources r).owner ≠ some p) :
    (c.sim.procs p).prio = (c.sim.procs p).prioOrig := by
  have hreturned : ∀ {policy : Policy n}, policy.Lends → Lawful sched policy →
      c.sim.Returned := by
    intro policy hlends hlaw
    apply reachable_invariant hlaw (fun c => c.sim.Returned) ?_ ?_ hreach
    · exact fun _ _ => rfl
    · exact fun _ _ _ hwf heffect hreturned => heffect.returned hlends hwf hreturned
  simp only [lendingSchedulers, List.mem_cons, List.not_mem_nil, or_false] at hsched
  rcases hsched with rfl | rfl
  · exact hreturned pcpPolicy_lends pcpScheduler_lawful p hidle
  · exact hreturned pipPolicy_lends pipScheduler_lawful p hidle

/-- The first process of `contended` has released both resources at step 18, and has lost
what it inherited from the second. -/
theorem borrowed_returned_contended :
    let c := pipScheduler.next^[18] contended.start
    (c.sim.procs 0).prio = (c.sim.procs 0).prioOrig := by
  intro c
  have hreach : (pipScheduler.machine contended).Reachable c := Machine.reachable_iterate _ _ 18
  exact borrowed_returned (by simp [lendingSchedulers]) hreach (by decide +kernel)

end OperatingSystem.Sched
