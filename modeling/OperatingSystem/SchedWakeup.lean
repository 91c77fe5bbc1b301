import OperatingSystem.SchedAssertions

/-!
# No lost wake-up

A release wakes one waiter and does not hand the resource over, so the process that
takes the resource need not be the one that was woken. Still, as long as the resource
is free some ready process requests it: the woken process waits for its turn, and
nobody joins the queue of a free resource. When the simulation ends there are no ready
processes, so every remaining process waits for an owned resource, and the owners wait
in their turn.
-/

namespace OperatingSystem.Sched

variable {n : Nat} {policy : Policy n}

/-- The process that may be about to take a resource. -/
def Pc.acquiring : Pc n → List (Fin n)
  | .acquire p _ _ => [p]
  | _ => []

/-- For a waiter of a free resource, some process that is ready or acquiring requests
the resource, and their priorities are related. -/
def Config.Handed (rel : Nat → Nat → Prop) (c : Config n) : Prop :=
  ∀ r, (c.sim.resources r).owner = none → ∀ x ∈ (c.sim.resources r).waitqueue,
    ∃ w ∈ c.sim.readyqueue ++ c.pc.acquiring,
      (c.sim.procs w).request = some r ∧ rel (c.sim.prio x) (c.sim.prio w)

section Step

variable {rel : Nat → Nat → Prop} {c next : Config n}

theorem Turn.request {s after : Sim n} {next : Option (Fin n)} (hqueued : s.Queued)
    (hturn : Turn policy (__forkOnSchedule s) next after) (q : Fin n) :
    (after.procs q).request = (s.procs q).request := by
  rw [hturn.procs hqueued]
  rfl

/-- A ready process stays ready in a turn, or is chosen. -/
theorem Turn.ready_kept {s after : Sim n} {next : Option (Fin n)}
    (hturn : Turn policy (__forkOnSchedule s) next after) {q : Fin n} (hready : q ∈ s.readyqueue) :
    q ∈ after.readyqueue ++ next.toList := by
  have hcandidate : q ∈ (__forkOnSchedule s).candidates :=
    mem_candidates.mpr (.inl (List.mem_append_left _ hready))
  exact List.mem_append.mpr ((List.mem_append.mp (hturn.chosen.perm.mem_iff.mpr hcandidate)).symm)

/-- The running process requests the entry that the loop has reached. -/
theorem Config.WellFormed.request_reached {s : Sim n} {p : Fin n}
    {skipped todo : List ResourceSchedule} {rs : ResourceSchedule}
    (hwf : (⟨.acquire p skipped (rs :: todo), s⟩ : Config n).WellFormed)
    (hage : rs.atAge = (s.procs p).age) : (s.procs p).request = some rs.resourceId :=
  request_of_reached hwf.shaped.2.1 hwf.shaped.2.2.1 hage

/-- The process that requests a resource does so after a step that keeps its place and
its request. -/
theorem Config.Handed.kept (hhanded : c.Handed rel)
    (hkeep : ∀ w x r, w ∈ c.sim.readyqueue ++ c.pc.acquiring →
      (c.sim.procs w).request = some r → x ∈ (c.sim.resources r).waitqueue →
      rel (c.sim.prio x) (c.sim.prio w) → rel (next.sim.prio x) (next.sim.prio w))
    {r : Fin NR_RESOURCES} {x : Fin n} (hfree : (c.sim.resources r).owner = none)
    (hx : x ∈ (c.sim.resources r).waitqueue)
    (hsame : ∀ w ∈ c.sim.readyqueue ++ c.pc.acquiring, (c.sim.procs w).request = some r →
      w ∈ next.sim.readyqueue ++ next.pc.acquiring ∧ (next.sim.procs w).request = some r) :
    ∃ w ∈ next.sim.readyqueue ++ next.pc.acquiring,
      (next.sim.procs w).request = some r ∧ rel (next.sim.prio x) (next.sim.prio w) := by
  obtain ⟨w, hw, hrequest, hrel⟩ := hhanded r hfree x hx
  obtain ⟨hw', hrequest'⟩ := hsame w hw hrequest
  exact ⟨w, hw', hrequest', hkeep w x r hw hrequest hx hrel⟩

theorem Effect.handed (hwf : c.WellFormed) (heffect : Effect policy c next)
    (hkeep : ∀ w x r, w ∈ c.sim.readyqueue ++ c.pc.acquiring →
      (c.sim.procs w).request = some r → x ∈ (c.sim.resources r).waitqueue →
      rel (c.sim.prio x) (c.sim.prio w) → rel (next.sim.prio x) (next.sim.prio w))
    (hwake : ∀ (s : Sim n) first rest, ∀ x ∈ first :: rest,
      rel (s.prio x) (s.prio (policy.waiter s first rest)))
    (hhanded : c.Handed rel) : next.Handed rel := by
  intro r hfree x hx
  cases heffect with
  | @finish s after hturn | @idle s after hturn | @dispatch s after p hturn =>
      have hresources : after.resources = s.resources := hturn.resources
      change (after.resources r).owner = none at hfree
      change x ∈ (after.resources r).waitqueue at hx
      rw [hresources] at hfree hx
      refine hhanded.kept hkeep hfree hx fun w hw hrequest => ⟨?_, ?_⟩
      · have hready : w ∈ s.readyqueue := by simpa [Pc.acquiring] using hw
        exact hturn.ready_kept hready
      · exact (hturn.request hwf.queued w).trans hrequest
  | refuse | skip | tick =>
      exact hhanded.kept hkeep hfree hx fun w hw hrequest => ⟨hw, hrequest⟩
  | @grant s p skipped todo rs hage _ =>
      have hr : r ≠ rs.resourceId := by
        rintro rfl
        simp [Sim.granted_owner] at hfree
      have hfree : (s.resources r).owner = none := by simpa [Sim.granted_owner, hr] using hfree
      have hx : x ∈ (s.resources r).waitqueue := by simpa using hx
      refine hhanded.kept hkeep hfree hx fun w hw hrequest => ?_
      -- the process that takes the resource requested another one than `r`
      have hne : w ≠ p := by
        rintro rfl
        exact hr (Option.some.inj (hrequest.symm.trans (hwf.request_reached hage)))
      refine ⟨hw, ?_⟩
      rw [s.granted_of_ne p _ rs _ hne]
      exact hrequest
  | @block s p q skipped todo rs hage howned =>
      have hfree : (s.resources r).owner = none := by simpa using hfree
      have hr : r ≠ rs.resourceId := by
        rintro rfl
        simp [hfree] at howned
      have hx : x ∈ (s.resources r).waitqueue := by simpa [Sim.blocked_waitqueue, hr] using hx
      refine hhanded.kept hkeep hfree hx fun w hw hrequest => ?_
      have hne : w ≠ p := by
        rintro rfl
        exact hr (Option.some.inj (hrequest.symm.trans (hwf.request_reached hage)))
      refine ⟨by simpa [Pc.acquiring, hne] using hw, ?_⟩
      rw [s.blocked_of_ne p _ _ hne]
      exact hrequest
  | @grow s p skipped =>
      refine hhanded.kept hkeep hfree hx fun w hw hrequest => ?_
      -- no pending entry of the running process has its age
      have hne : w ≠ p := by
        rintro rfl
        have hnone := hwf.request_passed rfl
        simp [hrequest] at hnone
      have hready : w ∈ s.readyqueue := by simpa [Pc.acquiring, hne] using hw
      refine ⟨List.mem_append_left _ hready, ?_⟩
      rw [s.grow_of_ne p hne]
      exact hrequest
  | @keep s p =>
      refine hhanded.kept hkeep hfree hx fun w hw hrequest => ⟨hw, ?_⟩
      rw [s.setHolding_frame]
      exact hrequest
  | @drop s p kept todo rs prios _ _ _ hqueue =>
      have hx : x ∈ (s.resources r).waitqueue := by simpa using hx
      have hr : r ≠ rs.resourceId := by
        rintro rfl
        simp [hqueue] at hx
      have hfree : (s.resources r).owner = none := by simpa [Sim.freed_owner, hr] using hfree
      refine hhanded.kept hkeep hfree hx fun w hw hrequest => ⟨hw, ?_⟩
      rw [s.freed_frame]
      exact hrequest
  | @wake s p first waiter rest kept todo rs prios _ _ _ hqueue hmem hwaiter =>
      by_cases hr : r = rs.resourceId
      · -- the woken process requests the resource that it waited for
        subst hr
        have hwait : waiter ∈ (s.resources rs.resourceId).waitqueue := hqueue ▸ hmem
        have hold : x ∈ first :: rest := by
          simp only [Sim.moveToReady_waitqueue, if_true, Sim.freed_waitqueue, hqueue] at hx
          exact List.mem_of_mem_erase hx
        have hrel := hwake (s.freed p prios rs.resourceId (kept ++ rs.countDown :: todo))
          first rest x hold
        rw [← hwaiter, Sim.freed_prio] at hrel
        refine ⟨waiter, by simp, ?_, ?_⟩
        · rw [Sim.moveToReady_frame, s.freed_frame]
          exact (hwf.queued.wait _ waiter hwait).2.2
        · rw [Sim.moveToReady_prio, Sim.freed_prio]
          exact hrel
      · have hfree : (s.resources r).owner = none := by simpa [Sim.freed_owner, hr] using hfree
        have hx : x ∈ (s.resources r).waitqueue := by
          simpa [Sim.moveToReady_waitqueue, hr] using hx
        refine hhanded.kept hkeep hfree hx fun w hw hrequest => ⟨?_, ?_⟩
        · have hready : w ∈ s.readyqueue := by simpa [Pc.acquiring] using hw
          simp [hready]
        · rw [Sim.moveToReady_frame, s.freed_frame]
          exact hrequest
  | finished | failed => exact hhanded r hfree x hx

end Step

/-! ## Where the processes are -/

/-- A process that has not exited is on a queue, or is the current one. -/
def Config.Located (c : Config n) : Prop :=
  ∀ p, (c.sim.procs p).status = .exit ∨ c.sim.linked p ∨ c.sim.current = some p

/-- What `__do_simulation` leaves behind. -/
def Config.Stranded (c : Config n) : Prop :=
  c.pc = .finished → c.sim.forkqueue = [] ∧ c.sim.readyqueue = [] ∧ c.sim.current = none

theorem Turn.located {s after : Sim n} {next : Option (Fin n)} (hqueued : s.Queued)
    (hshaped : Pc.Shaped s .iterate)
    (hyoung : ∀ p, s.current = some p → (s.procs p).age ≤ (s.procs p).lifespan)
    (hturn : Turn policy (__forkOnSchedule s) next after)
    (hlocated : ∀ p, (s.procs p).status = .exit ∨ s.linked p ∨ s.current = some p) (p : Fin n) :
    (after.procs p).status = .exit ∨ after.linked p ∨ after.current = some p := by
  have hprocs := forkOnSchedule_procs hqueued
  -- a candidate is the next process or stays ready
  have hcandidate : p ∈ (__forkOnSchedule s).candidates →
      after.linked p ∨ after.current = some p := by
    intro hmem
    rcases List.mem_append.mp (hturn.chosen.perm.mem_iff.mpr hmem) with hnext | hready
    · exact .inr (hturn.current.trans (Option.mem_toList.mp hnext))
    · exact .inl (.inr (.inl hready))
  have hwaiting : ∀ r, p ∈ (s.resources r).waitqueue → after.linked p := by
    intro r hwait
    refine .inr (.inr ⟨r, ?_⟩)
    rw [hturn.resources]
    exact hwait
  rcases hlocated p with hexit | hlinked | hcurrent
  · by_cases hnext : next = some p
    · exact .inr (.inr (hturn.current.trans hnext))
    · have hbefore : (__forkOnSchedule s).current ≠ some p := by
        intro hcurrent
        have hstatus := current_status hqueued hshaped hcurrent
        simp [hexit] at hstatus
      refine .inl ?_
      rw [hturn.status, Sim.turnedStatus, if_neg hnext, if_neg hbefore, hprocs]
      exact hexit
  · rcases (forkOnSchedule_linked s p).mpr hlinked with hfork | hready | ⟨r, hwait⟩
    · exact .inr (.inl (.inl (hturn.forkqueue ▸ hfork)))
    · exact .inr (hcandidate (mem_candidates.mpr (.inl hready)))
    · exact .inr (.inl (hwaiting r hwait))
  · rcases hshaped p hcurrent with hrun | ⟨r, hwait⟩
    · rcases (hyoung p hcurrent).lt_or_eq with hage | hage
      · refine .inr (hcandidate (mem_candidates.mpr (.inr ⟨?_, by rwa [hprocs]⟩)))
        exact running_eq_some.mpr ⟨hcurrent, by simp [hprocs, hrun]⟩
      · by_cases hnext : next = some p
        · exact .inr (.inr (hturn.current.trans hnext))
        · refine .inl ?_
          have hbefore : (__forkOnSchedule s).current = some p := hcurrent
          rw [hturn.status, Sim.turnedStatus, if_neg hnext, if_pos hbefore, hprocs,
            Process.updatedStatus, if_pos hage]
    · exact .inr (.inl (hwaiting r hwait))

/-- A step that keeps the exited processes, the queued ones and the current one. -/
theorem Config.Located.kept {c next : Config n} (hlocated : c.Located)
    (hexit : ∀ q, (c.sim.procs q).status = .exit → (next.sim.procs q).status = .exit)
    (hlinked : ∀ q, c.sim.linked q → next.sim.linked q)
    (hcurrent : next.sim.current = c.sim.current) : next.Located := by
  intro q
  rcases hlocated q with hq | hq | hq
  · exact .inl (hexit q hq)
  · exact .inr (.inl (hlinked q hq))
  · exact .inr (.inr (hcurrent.trans hq))

theorem Effect.located {c next : Config n} (hwf : c.WellFormed)
    (hyoung : c.pc = .iterate →
      ∀ p, c.sim.current = some p → (c.sim.procs p).age ≤ (c.sim.procs p).lifespan)
    (heffect : Effect policy c next) (hlocated : c.Located) : next.Located := by
  obtain ⟨hqueued, -, hshaped⟩ := hwf
  cases heffect with
  | @finish s after hturn | @idle s after hturn | @dispatch s after _ hturn =>
      intro q
      exact hturn.located hqueued hshaped (hyoung rfl) hlocated q
  | refuse | skip | tick | finished | failed => exact hlocated
  | @grant s p _ _ rs =>
      apply hlocated.kept
      · intro q hexit
        rw [s.granted_frame]
        exact hexit
      · intro q hlinked
        exact (s.granted_linked p _ rs _ q).mpr hlinked
      · rfl
  | @block s p _ _ _ rs =>
      apply hlocated.kept
      · intro q hexit
        have hne : q ≠ p := by
          rintro rfl
          exact absurd (hexit.symm.trans hshaped.1.2) (by simp)
        rw [s.blocked_of_ne p _ _ hne]
        exact hexit
      · intro q hlinked
        exact (s.blocked_linked p _ _ q).mpr (.inl hlinked)
      · rfl
  | @grow s p =>
      apply hlocated.kept
      · intro q hexit
        rw [s.grow_frame]
        exact hexit
      · exact fun _ hlinked => hlinked
      · rfl
  | @keep s p =>
      apply hlocated.kept
      · intro q hexit
        rw [s.setHolding_frame]
        exact hexit
      · exact fun _ hlinked => hlinked
      · rfl
  | @drop s p =>
      apply hlocated.kept
      · intro q hexit
        rw [s.freed_frame]
        exact hexit
      · intro q hlinked
        exact (s.freed_linked p _ _ _ q).mpr hlinked
      · rfl
  | @wake s p first waiter rest _ _ rs _ _ _ _ hqueue hmem =>
      have hwait : waiter ∈ (s.resources rs.resourceId).waitqueue := hqueue ▸ hmem
      apply hlocated.kept
      · intro q hexit
        have hne : q ≠ waiter := by
          rintro rfl
          exact hqueued.exited_not_linked hexit (.inr (.inr ⟨_, hwait⟩))
        rw [Sim.moveToReady_of_ne _ _ _ hne, s.freed_frame]
        exact hexit
      · intro q hlinked
        rw [Sim.moveToReady_linked _ _ (by simpa using hwait), s.freed_linked]
        exact hlinked
      · rfl

section Runs

variable {sched : Scheduler n} {script : Script n} {c : Config n} (hlaw : Lawful sched policy)

include hlaw

theorem reachable_located (hregular : script.Regular)
    (hreach : (sched.machine script).Reachable c) : c.Located := by
  refine reachable_invariant hlaw Config.Located ?_ ?_ hreach
  · intro p
    exact .inr (.inl (.inl (List.mem_finRange p)))
  · intro c next hstate hwf heffect hlocated
    refine heffect.located hwf (fun hpc => ?_) hlocated
    have hyoung := (reachable_prompt hlaw hregular hstate).young
    rwa [hpc] at hyoung

theorem reachable_stranded (hreach : (sched.machine script).Reachable c) : c.Stranded := by
  refine reachable_invariant hlaw Config.Stranded ?_ ?_ hreach
  · intro hpc
    cases hpc
  · intro c next _ _ heffect hstranded hpc
    cases heffect with
    | finish hturn hforks => exact ⟨hforks, hturn.chosen.idle rfl, hturn.current⟩
    | finished => exact hstranded rfl
    | _ => cases hpc

theorem reachable_handed (hreach : (sched.machine script).Reachable c) :
    c.Handed fun _ _ => True := by
  refine reachable_invariant hlaw (Config.Handed fun _ _ => True) ?_ ?_ hreach
  · intro r _ x hx
    cases hx
  · intro c next _ hwf heffect hhanded
    exact heffect.handed hwf (fun _ _ _ _ _ _ _ => trivial) (fun _ _ _ _ _ => trivial) hhanded

end Runs

/-! ## Deadlocks -/

/-- `p` waits for a resource that `q` owns. -/
def Sim.WaitsFor (s : Sim n) (p q : Fin n) : Prop :=
  ∃ r, p ∈ (s.resources r).waitqueue ∧ (s.resources r).owner = some q

/-- When the simulation has ended, a remaining process waits for a remaining one. -/
theorem stranded_waits {c : Config n} (hwf : c.WellFormed)
    (hhanded : c.Handed fun _ _ => True) (hlocated : c.Located) (hstranded : c.Stranded)
    (hpc : c.pc = .finished) {p : Fin n} (hremains : (c.sim.procs p).status ≠ .exit) :
    ∃ q, (c.sim.procs q).status ≠ .exit ∧ c.sim.WaitsFor p q := by
  obtain ⟨hforks, hreadies, hidle⟩ := hstranded hpc
  obtain ⟨r, hwait⟩ : ∃ r, p ∈ (c.sim.resources r).waitqueue := by
    rcases hlocated p with hexit | (hfork | hready | hwait) | hcurrent
    · exact absurd hexit hremains
    · simp [hforks] at hfork
    · simp [hreadies] at hready
    · exact hwait
    · simp [hidle] at hcurrent
  cases howner : (c.sim.resources r).owner with
  | none =>
      obtain ⟨w, hw, -⟩ := hhanded r howner p hwait
      simp [hreadies, hpc, Pc.acquiring] at hw
  | some q =>
      refine ⟨q, fun hexit => ?_, r, hwait, howner⟩
      have hheld := (hwf.owned.owner r q).mp howner
      simp [Process.held, hwf.owned.exited q hexit] at hheld

/-- **No lost wake-up.** At the head of the main loop a free resource with waiters is
requested by some ready process; and when the simulation ends before all processes have
exited, some of the remaining ones wait for each other in a cycle. -/
theorem no_lost_wakeup {sched : Scheduler n} (hsched : sched ∈ schedulers n)
    {script : Script n} (hregular : script.Regular) {c : Config n}
    (hreach : (sched.machine script).Reachable c) :
    (c.pc = .iterate → ∀ r, (c.sim.resources r).owner = none →
      (c.sim.resources r).waitqueue ≠ [] →
      ∃ w ∈ c.sim.readyqueue, (c.sim.procs w).request = some r) ∧
    (c.pc = .finished → ∀ p, (c.sim.procs p).status ≠ .exit →
      ∃ q, (c.sim.procs q).status ≠ .exit ∧ Relation.TransGen c.sim.WaitsFor q q) := by
  obtain ⟨policy, hlaw⟩ := schedulers_lawful hsched
  have hhanded := reachable_handed hlaw hreach
  constructor
  · intro hpc r hfree hwaiters
    obtain ⟨x, hx⟩ := List.exists_mem_of_ne_nil _ hwaiters
    obtain ⟨w, hw, hrequest, -⟩ := hhanded r hfree x hx
    exact ⟨w, by simpa [hpc, Pc.acquiring] using hw, hrequest⟩
  · intro hpc p hremains
    have hwf := reachable_wellFormed hlaw hreach
    have hlocated := reachable_located hlaw hregular hreach
    have hstranded := reachable_stranded hlaw hreach
    exact exists_cycle (S := {q | (c.sim.procs q).status ≠ .exit}) hremains fun q hq =>
      stranded_waits hwf hhanded hlocated hstranded hpc hq

/-- A process that requests again the resource it holds. -/
def selfish : Script 1 :=
  ![⟨1, 0, 3, 0, [⟨0, 0, 2⟩, ⟨0, 1, 1⟩]⟩]

/-- The process of `selfish` waits for itself when the simulation ends. -/
theorem no_lost_wakeup_selfish :
    ∃ q : Fin 1, Relation.TransGen (pipScheduler.next^[12] selfish.start).sim.WaitsFor q q := by
  have hregular : selfish.Regular := ⟨by decide, by decide, by decide⟩
  have hreach : (pipScheduler.machine selfish).Reachable (pipScheduler.next^[12] selfish.start) :=
    Machine.reachable_iterate _ _ 12
  obtain ⟨q, -, hcycle⟩ := (no_lost_wakeup (by simp [schedulers]) hregular hreach).2
    (by decide +kernel) 0 (by decide +kernel)
  exact ⟨q, hcycle⟩

end OperatingSystem.Sched
