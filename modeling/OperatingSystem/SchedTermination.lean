import OperatingSystem.SchedAssertions
import Mathlib.Algebra.Order.BigOperators.Group.Finset
import Mathlib.Data.Set.Card

/-!
# The simulation ends

A tick need not age anybody, since the chosen process may block. The variant therefore has
several components, in this order: the entries of the resource lists, of which a release
drops one; the ages that the processes may still reach; the processes on no wait queue, of
which a block takes one away; and the ticks up to the last start, which an idle iteration
uses up. What is left is the way through one iteration.
-/

namespace OperatingSystem.Sched

variable {n : Nat} {policy : Policy n}

/-- The number of entries of a process. -/
def Process.entries (process : Process) : Nat :=
  process.resourcesToAcquire.length + process.resourcesHolding.length

namespace Sim

def entries (s : Sim n) : Nat := ∑ p, (s.procs p).entries

/-- The ages up to the lifespan that the processes have not passed. -/
def ages (s : Sim n) : Nat := ∑ p, ((s.procs p).lifespan + 1 - (s.procs p).age)

/-- The number of processes on no wait queue. -/
noncomputable def unblocked (s : Sim n) : Nat := {p | ∀ r, p ∉ (s.resources r).waitqueue}.ncard

/-- The ticks up to the starts of the processes. -/
def early (s : Sim n) : Nat := ∑ p, ((s.procs p).startsAt - s.ticks)

end Sim

/-- The loops in the order in which an iteration leaves them, from the release loop on, and
the entries that the loop still has to pass. -/
def Pc.ahead : Pc n → Nat × Nat
  | .release _ _ todo => (2, todo.length)
  | .iterate => (1, 0)
  | .acquire _ _ todo => (0, todo.length)
  | .finished | .failed _ => (0, 0)

def Config.Stopped (c : Config n) : Prop := c.pc = .finished ∨ ∃ fault, c.pc = .failed fault

noncomputable def Config.variant (c : Config n) : Nat × Nat × Nat × Nat × Nat × Nat :=
  (c.sim.entries, c.sim.ages, c.sim.unblocked, c.sim.early, c.pc.ahead)

/-- The lexicographic order. -/
def Below : Nat × Nat × Nat × Nat × Nat × Nat → Nat × Nat × Nat × Nat × Nat × Nat → Prop :=
  Prod.Lex Nat.lt (Prod.Lex Nat.lt (Prod.Lex Nat.lt (Prod.Lex Nat.lt (Prod.Lex Nat.lt Nat.lt))))

theorem below_wellFounded : WellFounded Below :=
  have hlt := Nat.lt_wfRel.wf
  hlt.prod_lex (hlt.prod_lex (hlt.prod_lex (hlt.prod_lex (hlt.prod_lex hlt))))

/-! ## The components -/

section Components

variable {c next : Config n}

/-- No move adds an entry. -/
theorem Config.Moves.entries_le {q : Fin n} {process : Process} (hmoves : c.Moves q process) :
    process.entries ≤ (c.sim.procs q).entries := by
  cases hmoves with
  | stay hpending hholding => rw [Process.entries, hpending, hholding, Process.entries]
  | grant _ _ hsplit hpending hholding =>
      simp only [Process.entries, hsplit, hpending, hholding, List.length_append, List.length_cons,
        List.length_nil]
      omega
  | keep _ hsplit hpending hholding | drop _ hsplit hpending hholding =>
      simp only [Process.entries, hsplit, hpending, hholding, List.length_append, List.length_cons]
      omega

theorem Effect.entries_le (hwf : c.WellFormed) (heffect : Effect policy c next) :
    next.sim.entries ≤ c.sim.entries :=
  Finset.sum_le_sum fun q _ => (heffect.moves hwf q).entries_le

/-- A release drops an entry. -/
theorem Effect.entries_lt (hwf : c.WellFormed) (heffect : Effect policy c next) {p : Fin n}
    (hdrop : (next.sim.procs p).entries < (c.sim.procs p).entries) :
    next.sim.entries < c.sim.entries :=
  Finset.sum_lt_sum (fun q _ => (heffect.moves hwf q).entries_le) ⟨p, Finset.mem_univ p, hdrop⟩

theorem Effect.ages_le (hwf : c.WellFormed) (heffect : Effect policy c next) :
    next.sim.ages ≤ c.sim.ages := by
  refine Finset.sum_le_sum fun q _ => ?_
  rw [(heffect.fixed hwf q).1, heffect.age hwf]
  omega

theorem Effect.ages_lt (hwf : c.WellFormed) (heffect : Effect policy c next) {p : Fin n}
    (hgrowing : c.pc.growing = some p) (hage : (c.sim.procs p).age ≤ (c.sim.procs p).lifespan) :
    next.sim.ages < c.sim.ages := by
  refine Finset.sum_lt_sum (fun q _ => ?_) ⟨p, Finset.mem_univ p, ?_⟩
  · rw [(heffect.fixed hwf q).1, heffect.age hwf]
    omega
  · rw [(heffect.fixed hwf p).1, heffect.age hwf, if_pos hgrowing]
    omega

theorem unblocked_le (hsame : ∀ r, (next.sim.resources r).waitqueue =
    (c.sim.resources r).waitqueue) : next.sim.unblocked ≤ c.sim.unblocked := by
  simp only [Sim.unblocked, hsame, le_refl]

theorem Effect.early_le (hwf : c.WellFormed) (heffect : Effect policy c next)
    (hticks : c.sim.ticks ≤ next.sim.ticks) : next.sim.early ≤ c.sim.early := by
  refine Finset.sum_le_sum fun q _ => ?_
  rw [(heffect.fixed hwf q).2.1]
  omega

end Components

/-! ## Every step goes down -/

section Step

variable {c next : Config n}

/-- A step that keeps the wait queues and does not go back in time. -/
theorem Effect.below_of_ahead (hwf : c.WellFormed) (heffect : Effect policy c next)
    (hwaitqueue : ∀ r, (next.sim.resources r).waitqueue = (c.sim.resources r).waitqueue)
    (hticks : c.sim.ticks ≤ next.sim.ticks)
    (hahead : Prod.Lex Nat.lt Nat.lt next.pc.ahead c.pc.ahead) :
    Below next.variant c.variant :=
  .right' _ (heffect.entries_le hwf) (.right' _ (heffect.ages_le hwf)
    (.right' _ (unblocked_le hwaitqueue) (.right' _ (heffect.early_le hwf hticks) hahead)))

theorem freed_entries {s : Sim n} {p : Fin n} {kept todo : List ResourceSchedule}
    {rs : ResourceSchedule} (hholding : (s.procs p).resourcesHolding = kept ++ rs :: todo)
    (prios : Fin n → Nat) (r : Fin NR_RESOURCES) :
    ((s.freed p prios r (kept ++ todo)).procs p).entries < (s.procs p).entries := by
  simp only [Process.entries, Sim.freed_self, hholding, List.length_append, List.length_cons]
  omega

/-- An idle iteration goes towards a start. -/
theorem idle_early {s after : Sim n} (hqueued : s.Queued)
    (hturn : Turn policy (__forkOnSchedule s) none after) (hforks : after.forkqueue ≠ []) :
    after.tick.early < s.early := by
  obtain ⟨p, hp⟩ := List.exists_mem_of_ne_nil _ hforks
  rw [hturn.forkqueue] at hp
  have hlate : s.ticks < (s.procs p).startsAt := by
    have hfork := (List.mem_filter.mp hp).2
    simpa using hfork
  have hticks : after.ticks = s.ticks := hturn.ticks
  have hlater : ∀ q, (after.tick.procs q).startsAt - after.tick.ticks =
      (s.procs q).startsAt - (s.ticks + 1) := by
    intro q
    show (after.procs q).startsAt - (after.ticks + 1) = _
    rw [hturn.procs hqueued, hticks]
  refine Finset.sum_lt_sum (fun q _ => ?_) ⟨p, Finset.mem_univ p, ?_⟩
  · rw [hlater]
    omega
  · rw [hlater]
    omega

/-- The process that blocks joins those on a wait queue. -/
theorem blocked_unblocked {s : Sim n} {p : Fin n} (hwaits : ∀ r, p ∉ (s.resources r).waitqueue)
    (prios : Fin n → Nat) (r : Fin NR_RESOURCES) :
    (s.blocked p prios r).unblocked < s.unblocked := by
  refine Set.ncard_lt_ncard (Set.ssubset_iff_of_subset ?_ |>.mpr ⟨p, hwaits, ?_⟩)
  · intro q hq r' hwait
    apply hq r'
    rw [s.blocked_waitqueue]
    by_cases hr : r' = r
    · simp [← hr, hwait]
    · simpa [hr] using hwait
  · intro hp
    have hout := hp r
    simp [Sim.blocked_waitqueue] at hout

theorem Effect.below (hwf : c.WellFormed) (heffect : Effect policy c next)
    (hruns : ¬ next.Stopped) : Below next.variant c.variant := by
  have hahead := heffect.below_of_ahead hwf
  have hentries := heffect.entries_le hwf
  have hdrops := fun p => heffect.entries_lt hwf (p := p)
  have hages := heffect.ages_le hwf
  have hgrowing := fun p => heffect.ages_lt hwf (p := p)
  obtain ⟨hqueued, -, hshaped⟩ := hwf
  cases heffect with
  | finish | finished => exact absurd (.inl rfl) hruns
  | refuse | failed => exact absurd (.inr ⟨_, rfl⟩) hruns
  | @idle s after hturn hforks =>
      have hwaitqueue : ∀ r, (after.resources r).waitqueue = (s.resources r).waitqueue := by
        intro r
        rw [hturn.resources]
        rfl
      exact .right' _ hentries (.right' _ hages (.right' _ (unblocked_le hwaitqueue)
        (.left _ _ (idle_early hqueued hturn hforks))))
  | @dispatch s after p hturn =>
      refine hahead (fun r => ?_) hturn.ticks.ge (.left _ _ (by simp))
      show (after.resources r).waitqueue = _
      rw [hturn.resources]
      rfl
  | skip => exact hahead (fun _ => rfl) le_rfl (.right _ (by simp))
  | @grant s p skipped todo rs =>
      exact hahead (s.granted_waitqueue p _ rs _) le_rfl (.right _ (by simp))
  | @block s p q _ _ rs =>
      have hwaits : ∀ r, p ∉ (s.resources r).waitqueue := fun r hwait =>
        hqueued.not_linked hshaped.1.2 (.inr (.inr ⟨r, hwait⟩))
      exact .right' _ hentries (.right' _ hages (.left _ _ (blocked_unblocked hwaits _ _)))
  | @grow s p => exact .right' _ hentries (.left _ _ (hgrowing p rfl hshaped.2.2.2))
  | keep => exact hahead (fun _ => rfl) le_rfl (.right _ (by simp))
  | @drop s p => exact .left _ _ (hdrops p (freed_entries hshaped.2 _ _))
  | @wake s p _ _ _ kept todo rs prios =>
      refine .left _ _ (hdrops p ?_)
      rw [Sim.moveToReady_frame]
      exact freed_entries hshaped.2 prios rs.resourceId
  | tick => exact hahead (fun _ => rfl) (Nat.le_succ _) (.left _ _ (by simp))

end Step

theorem exists_stopped {sched : Scheduler n} (hlaw : Lawful sched policy) (script : Script n) :
    ∃ count, (sched.next^[count] script.start).Stopped := by
  refine Machine.exists_stop below_wellFounded Config.variant Config.Stopped ?_
  intro c hreach hruns
  have hwf := reachable_wellFormed hlaw hreach
  exact (step_effect hlaw hwf).below hwf hruns

/-- **The simulation ends.** After finitely many steps the main loop reaches its break, or an
assertion of `__exit_process` fails. -/
theorem simulation_ends {sched : Scheduler n} (hsched : sched ∈ schedulers n)
    (script : Script n) : ∃ count,
      (sched.next^[count] script.start).pc = .finished ∨
      ∃ fault, fault.OfExit ∧ (sched.next^[count] script.start).pc = .failed fault := by
  obtain ⟨policy, hlaw⟩ := schedulers_lawful hsched
  obtain ⟨count, hstop⟩ := exists_stopped hlaw script
  refine ⟨count, hstop.imp_right ?_⟩
  rintro ⟨fault, hfail⟩
  exact ⟨fault, reachable_fault hlaw (Machine.reachable_iterate _ _ count) hfail, hfail⟩

theorem simulation_ends_contended : ∃ count,
    (pipScheduler.next^[count] contended.start).pc = .finished ∨
    ∃ fault, fault.OfExit ∧ (pipScheduler.next^[count] contended.start).pc = .failed fault :=
  simulation_ends (by simp [schedulers]) contended

end OperatingSystem.Sched
