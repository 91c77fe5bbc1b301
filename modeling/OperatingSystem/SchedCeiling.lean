import OperatingSystem.SchedInversion

/-!
# Priority ceiling

`pcp_acquire` raises the process to `MAX_PRIO`, and `prio_release` takes the boost back
with the first resource that is released, also when others are still owned. The owner of
a resource is boosted as long as no process releases only a part of what it owns.

Without nested uses nothing is released in part. The owner of a resource then stays the
running process until it has released it, since it is the only process at `MAX_PRIO`, and
nobody ever finds a resource owned by another process.
-/

namespace OperatingSystem.Sched

variable {n : Nat}

/-- A process that releases a resource has kept none in this tick, and goes on to release
all the others. -/
def Pc.ReleasesAll : Pc n → Prop
  | .release _ kept (rs :: todo) =>
      rs.duration = 1 → kept = [] ∧ ∀ other ∈ todo, other.duration = 1
  | _ => True

instance : (pc : Pc n) → Decidable pc.ReleasesAll
  | .release _ _ (_ :: _) => inferInstanceAs (Decidable (_ → _))
  | .release _ _ [] | .iterate | .acquire _ _ _ | .finished | .failed _ => .isTrue trivial

/-- Every owner has the highest priority. -/
def Sim.Ceiling (s : Sim n) : Prop :=
  ∀ r q, (s.resources r).owner = some q → s.prio q = MAX_PRIO

/-- The owners have the highest priority, except for a process that is about to release
all that it still owns. -/
def Pc.Boosted (s : Sim n) : Pc n → Prop
  | .release p kept todo =>
      (∀ r q, q ≠ p → (s.resources r).owner = some q → s.prio q = MAX_PRIO) ∧
      (s.prio p = MAX_PRIO ∨ kept = [] ∧ ∀ rs ∈ todo, rs.duration = 1)
  | _ => s.Ceiling

/-! ## The boost -/

section Steps

variable {s : Sim n} {p : Fin n}

theorem Turn.ceiling {policy : Policy n} {after : Sim n} {next : Option (Fin n)}
    (hqueued : s.Queued) (hturn : Turn policy (__forkOnSchedule s) next after)
    (howners : s.Ceiling) : after.Ceiling := by
  intro r q howner
  have hresources : after.resources = s.resources := hturn.resources
  rw [hresources] at howner
  rw [Sim.prio, hturn.procs hqueued]
  exact howners r q howner

theorem granted_ceiling (howners : s.Ceiling) (rs : ResourceSchedule)
    (pending : List ResourceSchedule) :
    (s.granted p (pcpPolicy.granted s p) rs pending).Ceiling := by
  intro r q howner
  rw [s.granted_prio]
  by_cases hq : q = p
  · subst hq
    exact Function.update_self _ _ _
  · rw [s.granted_owner] at howner
    by_cases hr : r = rs.resourceId
    · rw [if_pos hr] at howner
      exact absurd (Option.some.inj howner).symm hq
    · rw [if_neg hr] at howner
      exact (Function.update_of_ne hq _ _).trans (howners r q howner)

theorem released_self (holding : List ResourceSchedule) :
    pcpPolicy.released (s.setHolding p holding) p p = (s.procs p).prioOrig := by
  have hself : pcpPolicy.released (s.setHolding p holding) p p =
      ((s.setHolding p holding).procs p).prioOrig := Function.update_self _ _ _
  rw [hself, s.setHolding_frame]

/-- A release changes the priority of nobody else. -/
theorem released_of_ne (holding : List ResourceSchedule) {q : Fin n} (hq : q ≠ p) :
    pcpPolicy.released (s.setHolding p holding) p q = s.prio q := by
  have hother : pcpPolicy.released (s.setHolding p holding) p q =
      (s.setHolding p holding).prio q := Function.update_of_ne hq _ _
  rw [hother, s.setHolding_prio]

theorem freed_boosted
    (howners : ∀ r q, q ≠ p → (s.resources r).owner = some q → s.prio q = MAX_PRIO)
    {prios : Fin n → Nat} {holding : List ResourceSchedule}
    (hprios : prios = pcpPolicy.released (s.setHolding p holding) p)
    (freed : Fin NR_RESOURCES) (rest : List ResourceSchedule) (r : Fin NR_RESOURCES) (q : Fin n)
    (hq : q ≠ p) (howner : ((s.freed p prios freed rest).resources r).owner = some q) :
    (s.freed p prios freed rest).prio q = MAX_PRIO := by
  rw [s.freed_owner] at howner
  by_cases hr : r = freed
  · rw [if_pos hr] at howner
    cases howner
  · rw [if_neg hr] at howner
    rw [s.freed_prio, hprios, released_of_ne holding hq]
    exact howners r q hq howner

end Steps

theorem Effect.boosted {c next : Config n} (hwf : c.WellFormed)
    (heffect : Effect pcpPolicy c next) (hreleases : c.pc.ReleasesAll)
    (hboosted : c.pc.Boosted c.sim) : next.pc.Boosted next.sim := by
  cases heffect with
  | finish hturn | dispatch hturn => exact hturn.ceiling hwf.queued hboosted
  | idle hturn =>
      intro r q howner
      exact hturn.ceiling hwf.queued hboosted r q howner
  | refuse | skip => exact hboosted
  | grant => exact granted_ceiling hboosted _ _
  | @block s p =>
      intro r q howner
      rw [s.blocked_owner] at howner
      rw [s.blocked_prio]
      exact hboosted r q howner
  | @grow s p =>
      refine ⟨fun r q _ howner => ?_, ?_⟩
      · rw [s.grow_prio]
        exact hboosted r q howner
      · cases hholding : (s.procs p).resourcesHolding with
        | nil => exact .inr ⟨rfl, by simp⟩
        | cons rs rest =>
            have howner : (s.resources rs.resourceId).owner = some p :=
              (hwf.owned.owner _ p).mpr (by simp [Process.held, hholding])
            rw [s.grow_prio]
            exact .inl (hboosted _ p howner)
  | @keep s p kept todo rs hduration =>
      obtain ⟨howners, hself⟩ := hboosted
      refine ⟨fun r q hq howner => ?_, ?_⟩
      · rw [s.setHolding_prio]
        exact howners r q hq howner
      · rcases hself with hmax | ⟨-, hall⟩
        · rw [s.setHolding_prio]
          exact .inl hmax
        · exact absurd (hall rs List.mem_cons_self) hduration
  | @drop s p kept todo rs prios hduration hprios =>
      exact ⟨freed_boosted hboosted.1 hprios _ _, .inr (hreleases hduration)⟩
  | @wake s p first waiter rest kept todo rs prios hduration hprios =>
      refine ⟨fun r q hq howner => ?_, .inr (hreleases hduration)⟩
      rw [Sim.moveToReady_owner] at howner
      rw [Sim.moveToReady_prio]
      exact freed_boosted hboosted.1 hprios _ _ r q hq howner
  | @tick s p kept =>
      obtain ⟨howners, hself⟩ := hboosted
      intro r q howner
      by_cases hq : q = p
      · subst hq
        rcases hself with hmax | ⟨rfl, -⟩
        · exact hmax
        · have hnone : (s.procs q).resourcesHolding = [] := hwf.shaped.2
          have hheld := (hwf.owned.owner r q).mp howner
          simp [Process.held, hnone] at hheld
      · exact howners r q hq howner
  | finished | failed => exact hboosted

theorem reachable_boosted {script : Script n} {c : Config n}
    (hreach : ((pcpScheduler.machine script).restrict fun c => c.pc.ReleasesAll).Reachable c) :
    c.pc.Boosted c.sim := by
  apply hreach.invariant fun c => c.pc.Boosted c.sim
  · intro r q howner
    cases howner
  · rintro c - next hstate hboosted ⟨hreleases, rfl⟩
    have hwf := reachable_wellFormed pcpScheduler_lawful hstate.of_restrict
    exact (step_effect pcpScheduler_lawful hwf).boosted hwf hreleases hboosted

/-! ## The loss of the boost -/

/-- One step of the release loop. -/
theorem release_prio {s : Sim n} {p : Fin n} {kept todo : List ResourceSchedule}
    {rs : ResourceSchedule} {next : Config n}
    (heffect : Effect pcpPolicy ⟨.release p kept (rs :: todo), s⟩ next) :
    ∃ kept' after, next = ⟨.release p kept' todo, after⟩ ∧
      (rs.duration ≠ 1 → kept' = kept ++ [rs.countDown] ∧ after.prio p = s.prio p) ∧
      (rs.duration = 1 → kept' = kept ∧ after.prio p = (s.procs p).prioOrig) := by
  cases heffect with
  | keep hduration =>
      refine ⟨_, _, rfl, fun _ => ⟨rfl, ?_⟩, fun hone => absurd hone hduration⟩
      rw [s.setHolding_prio]
  | drop hduration hprios =>
      refine ⟨_, _, rfl, fun hne => absurd hduration hne, fun _ => ⟨rfl, ?_⟩⟩
      rw [s.freed_prio, hprios, released_self]
  | wake hduration hprios =>
      refine ⟨_, _, rfl, fun hne => absurd hduration hne, fun _ => ⟨rfl, ?_⟩⟩
      rw [Sim.moveToReady_prio, s.freed_prio, hprios, released_self]

section Lost

variable {script : Script n} (hprio : ∀ p, (script p).prio < MAX_PRIO)

include hprio

theorem prioOrig_lt {c : Config n} (hreach : (pcpScheduler.machine script).Reachable c)
    (p : Fin n) : (c.sim.procs p).prioOrig < MAX_PRIO := by
  rw [((reachable_timed pcpScheduler_lawful hreach).follows p).prioOrig]
  exact hprio p

/-- A process that has lost the boost, and releases only a part of what it owns, has not got
it back at the head of the main loop. -/
theorem partial_release {p : Fin n} {todo : List ResourceSchedule} :
    ∀ {s : Sim n} {kept : List ResourceSchedule},
      (pcpScheduler.machine script).Reachable ⟨.release p kept todo, s⟩ →
      s.prio p < MAX_PRIO → (kept ≠ [] ∨ ∃ rs ∈ todo, rs.duration ≠ 1) →
      ∃ c, (pcpScheduler.machine script).Reachable c ∧ c.pc = .iterate ∧ ¬ c.sim.Ceiling := by
  induction todo with
  | nil =>
      intro s kept hreach hlost hpart
      obtain ⟨rs, rest, rfl⟩ := List.exists_cons_of_ne_nil (hpart.resolve_right (by simp))
      have hwf := reachable_wellFormed pcpScheduler_lawful hreach
      have howner : (s.resources rs.resourceId).owner = some p := by
        rw [hwf.owned.owner, Process.held, hwf.shaped.2]
        simp
      refine ⟨_, reachable_next hreach, rfl, fun hceiling => ?_⟩
      have hmax : s.prio p = MAX_PRIO := hceiling rs.resourceId p howner
      exact absurd hmax hlost.ne
  | cons rs todo ih =>
      intro s kept hreach hlost hpart
      have hwf := reachable_wellFormed pcpScheduler_lawful hreach
      obtain ⟨kept', after, hnext, hkeep, hdrop⟩ :=
        release_prio (step_effect pcpScheduler_lawful hwf)
      have hafter : (pcpScheduler.machine script).Reachable ⟨.release p kept' todo, after⟩ :=
        hnext ▸ reachable_next hreach
      by_cases hduration : rs.duration = 1
      · obtain ⟨rfl, horig⟩ := hdrop hduration
        apply ih hafter
        · rw [horig]
          exact prioOrig_lt hprio hreach p
        · rcases hpart with hkept | ⟨other, hother, hne⟩
          · exact .inl hkept
          · rcases List.mem_cons.mp hother with rfl | hother
            · exact absurd hduration hne
            · exact .inr ⟨other, hother, hne⟩
      · obtain ⟨rfl, hsame⟩ := hkeep hduration
        exact ih hafter (hsame ▸ hlost) (.inl (by simp))

end Lost

/-- **The ceiling.** As long as every process that releases a resource releases all that it
owns in the same tick, every owner is boosted at the head of the main loop; and in a run
where a process does not, some owner is not boosted. -/
theorem pcp_ceiling {script : Script n} (hprio : ∀ p, (script p).prio < MAX_PRIO) :
    (∀ c, ((pcpScheduler.machine script).restrict fun c => c.pc.ReleasesAll).Reachable c →
      c.pc = .iterate → c.sim.Ceiling) ∧
    (∀ c, (pcpScheduler.machine script).Reachable c → ¬ c.pc.ReleasesAll →
      ∃ c', (pcpScheduler.machine script).Reachable c' ∧ c'.pc = .iterate ∧ ¬ c'.sim.Ceiling) := by
  constructor
  · intro c hreach hpc
    have hboosted := reachable_boosted hreach
    rw [hpc] at hboosted
    exact hboosted
  · rintro ⟨pc, s⟩ hreach hpartly
    cases pc with
    | release p kept todo =>
        cases todo with
        | nil => exact absurd trivial hpartly
        | cons rs todo =>
            have hwf := reachable_wellFormed pcpScheduler_lawful hreach
            obtain ⟨hduration, hpart⟩ := Classical.not_imp.mp hpartly
            obtain ⟨kept', after, hnext, -, hdrop⟩ :=
              release_prio (step_effect pcpScheduler_lawful hwf)
            obtain ⟨rfl, horig⟩ := hdrop hduration
            have hafter : (pcpScheduler.machine script).Reachable
                ⟨.release p kept' todo, after⟩ := hnext ▸ reachable_next hreach
            apply partial_release hprio hafter
            · rw [horig]
              exact prioOrig_lt hprio hreach p
            · rw [or_iff_not_imp_left, not_not]
              intro hnil
              simpa [hnil] using hpart
    | _ => exact absurd trivial hpartly

/-- Until the first process of `contended` releases the second of its resources, both are
owned by a process of the highest priority. -/
theorem pcp_ceiling_contended : (pcpScheduler.next^[7] contended.start).sim.Ceiling := by
  have hscript : ∀ p, (contended p).prio < MAX_PRIO := by decide
  have hguard : ∀ i < 7, (pcpScheduler.next^[i] contended.start).pc.ReleasesAll := by
    decide +kernel
  exact (pcp_ceiling hscript).1 _ (Machine.restrict_iterate hguard) (by decide +kernel)

/-- After it the first one still owns the other resource, at its own priority. -/
theorem pcp_ceiling_lost :
    (∀ p, (contended p).prio < MAX_PRIO) ∧
    let c := pcpScheduler.next^[12] contended.start
    c.pc = .iterate ∧ (c.sim.resources 0).owner = some 0 ∧ c.sim.prio 0 = 1 ∧
      ¬ c.sim.Ceiling := by
  refine ⟨by decide, by decide +kernel, by decide +kernel, by decide +kernel, fun hceiling => ?_⟩
  have howner : ((pcpScheduler.next^[12] contended.start).sim.resources 0).owner = some 0 := by
    decide +kernel
  have hmax := hceiling 0 0 howner
  have hone : (pcpScheduler.next^[12] contended.start).sim.prio 0 = 1 := by decide +kernel
  rw [hone] at hmax
  exact absurd hmax (by decide)

/-! ## Without nested uses -/

/-- Nobody waits, the owner of a resource is the current process, and who owns nothing has
a priority below the ceiling. -/
structure Config.Exclusive (c : Config n) : Prop where
  idle : ∀ r, (c.sim.resources r).waitqueue = []
  owner : ∀ r q, (c.sim.resources r).owner = some q → c.sim.current = some q
  plain : ∀ q, (∀ r, (c.sim.resources r).owner ≠ some q) → c.sim.prio q < MAX_PRIO

section NonNested

variable {script : Script n} (hscript : script.NonNested) {c : Config n}
  (hreach : (pcpScheduler.machine script).Reachable c)

include hscript hreach

/-- A process that holds at most one entry releases all that it owns. -/
theorem reachable_releasesAll : c.pc.ReleasesAll := by
  have hsingle := reachable_single pcpScheduler_lawful hscript hreach
  have hwf := reachable_wellFormed pcpScheduler_lawful hreach
  obtain ⟨pc, s⟩ := c
  cases pc with
  | release p kept todo =>
      cases todo with
      | nil => exact trivial
      | cons rs todo =>
          intro _
          have hone := (hsingle p).holding
          have hholding : (s.procs p).resourcesHolding = kept ++ rs :: todo := hwf.shaped.2
          simp only [hholding, List.length_append, List.length_cons] at hone
          obtain rfl : kept = [] := List.length_eq_zero_iff.mp (by omega)
          obtain rfl : todo = [] := List.length_eq_zero_iff.mp (by omega)
          simp
  | _ => exact trivial

theorem reachable_ceiling (hpc : c.pc = .iterate) : c.sim.Ceiling := by
  have hboosted := reachable_boosted
    (hreach.restrict fun _ hstate => reachable_releasesAll hscript hstate)
  rw [hpc] at hboosted
  exact hboosted

/-- The owner of a resource is the process that runs next: nobody else has its priority. -/
theorem chosen_owner (hpc : c.pc = .iterate) (hexclusive : c.Exclusive) {next : Option (Fin n)}
    {queue : List (Fin n)} (hchosen : Chosen pcpPolicy (__forkOnSchedule c.sim) next queue)
    {r : Fin NR_RESOURCES} {q : Fin n} (howner : (c.sim.resources r).owner = some q) :
    next = some q := by
  have hprocs := forkOnSchedule_procs (reachable_wellFormed pcpScheduler_lawful hreach).queued
  have hcandidate := owner_candidate pcpScheduler_lawful hscript hreach hpc howner
  have hmax : c.sim.prio q = MAX_PRIO := reachable_ceiling hscript hreach hpc r q howner
  cases next with
  | none =>
      have hempty := hchosen.perm.mem_iff.mpr hcandidate
      simp [hchosen.idle rfl] at hempty
  | some p =>
      have hle : ((__forkOnSchedule c.sim).procs q).prio ≤
          ((__forkOnSchedule c.sim).procs p).prio := hchosen.prefers p rfl q hcandidate
      rw [hprocs] at hle
      have howns : ∃ r, (c.sim.resources r).owner = some p := by
        by_contra hnone
        have hlt := hexclusive.plain p fun r hr => hnone ⟨r, hr⟩
        have hge : MAX_PRIO ≤ c.sim.prio p := hmax ▸ hle
        exact absurd hlt hge.not_gt
      obtain ⟨r', howner'⟩ := howns
      exact (hexclusive.owner r' p howner').symm.trans (hexclusive.owner r q howner)

/-- A resource that the running process requests is free. -/
theorem request_free {s : Sim n} {p : Fin n} {skipped todo : List ResourceSchedule}
    {rs : ResourceSchedule} (hc : c = ⟨.acquire p skipped (rs :: todo), s⟩)
    (hexclusive : c.Exclusive) (hage : rs.atAge = (s.procs p).age) (r : Fin NR_RESOURCES) :
    (s.resources r).owner = none := by
  subst hc
  have hwf := reachable_wellFormed pcpScheduler_lawful hreach
  cases howner : (s.resources r).owner with
  | none => rfl
  | some q =>
      have hcurrent : s.current = some q := hexclusive.owner r q howner
      obtain rfl : q = p := Option.some.inj (hcurrent.symm.trans hwf.shaped.1.1)
      exact absurd howner (requester_owns_nothing pcpScheduler_lawful hscript hreach (by simp)
        (hwf.request_reached hage) r)

theorem Effect.exclusive {next : Config n} (hprio : ∀ p, (script p).prio < MAX_PRIO)
    (hwf : c.WellFormed) (heffect : Effect pcpPolicy c next) (hexclusive : c.Exclusive) :
    next.Exclusive := by
  have hfree : ∀ {s p skipped rs todo}, c = ⟨.acquire p skipped (rs :: todo), s⟩ →
      rs.atAge = (s.procs p).age → ∀ r, (s.resources r).owner = none := fun hc hage r =>
    request_free hscript hreach hc hexclusive hage r
  have hturned : ∀ {s next after}, c = ⟨.iterate, s⟩ →
      Turn pcpPolicy (__forkOnSchedule s) next after →
        ∀ pc, (⟨pc, after⟩ : Config n).Exclusive := by
    rintro s next after rfl hturn pc
    have hresources : after.resources = s.resources := hturn.resources
    refine ⟨?_, fun r q howner => ?_, fun q hnone => ?_⟩
    · rw [hresources]
      exact hexclusive.idle
    · rw [hresources] at howner
      rw [hturn.current]
      exact chosen_owner hscript hreach rfl hexclusive hturn.chosen howner
    · rw [hresources] at hnone
      rw [Sim.prio, hturn.procs hwf.queued]
      exact hexclusive.plain q hnone
  cases heffect with
  | finish hturn => exact hturned rfl hturn _
  | dispatch hturn => exact hturned rfl hturn _
  | @idle s after hturn =>
      obtain ⟨hidle, howner, hplain⟩ := hturned rfl hturn .finished
      exact ⟨hidle, howner, hplain⟩
  | refuse | skip | tick | finished | failed =>
      exact ⟨hexclusive.idle, hexclusive.owner, hexclusive.plain⟩
  | @grant s p skipped todo rs hage =>
      refine ⟨fun r => ?_, fun r q howner => ?_, fun q hnone => ?_⟩
      · rw [s.granted_waitqueue]
        exact hexclusive.idle r
      · rw [s.granted_owner] at howner
        by_cases hr : r = rs.resourceId
        · rw [if_pos hr] at howner
          exact howner ▸ hwf.shaped.1.1
        · rw [if_neg hr] at howner
          exact hexclusive.owner r q howner
      · rw [s.granted_prio]
        have hq : q ≠ p := by
          rintro rfl
          exact hnone rs.resourceId (by rw [s.granted_owner, if_pos rfl])
        have hsame : pcpPolicy.granted s p q = s.prio q := Function.update_of_ne hq _ _
        rw [hsame]
        refine hexclusive.plain q fun r hr => ?_
        have hnobody := hfree rfl hage r
        rw [hr] at hnobody
        cases hnobody
  | @block s p owner skipped todo rs hage howned =>
      have hnobody := hfree rfl hage rs.resourceId
      rw [howned] at hnobody
      cases hnobody
  | @grow s p =>
      refine ⟨hexclusive.idle, hexclusive.owner, fun q hnone => ?_⟩
      rw [s.grow_prio]
      exact hexclusive.plain q hnone
  | @keep s p =>
      refine ⟨hexclusive.idle, hexclusive.owner, fun q hnone => ?_⟩
      rw [s.setHolding_prio]
      exact hexclusive.plain q hnone
  | @drop s p kept todo rs prios hduration hprios howner =>
      refine ⟨fun r => ?_, fun r q hr => ?_, fun q hnone => ?_⟩
      · rw [s.freed_waitqueue]
        exact hexclusive.idle r
      · rw [s.freed_owner] at hr
        by_cases heq : r = rs.resourceId
        · rw [if_pos heq] at hr
          cases hr
        · rw [if_neg heq] at hr
          exact hexclusive.owner r q hr
      · rw [s.freed_prio, hprios]
        by_cases hq : q = p
        · subst hq
          rw [released_self]
          exact prioOrig_lt hprio hreach q
        · rw [released_of_ne _ hq]
          refine hexclusive.plain q fun r hr => hnone r ?_
          have hne : r ≠ rs.resourceId := by
            rintro rfl
            exact hq (Option.some.inj (hr.symm.trans howner))
          rwa [s.freed_owner, if_neg hne]
  | @wake s p first waiter rest kept todo rs prios _ _ _ hqueue =>
      have hidle : (s.resources rs.resourceId).waitqueue = [] := hexclusive.idle rs.resourceId
      rw [hidle] at hqueue
      cases hqueue

theorem reachable_exclusive (hprio : ∀ p, (script p).prio < MAX_PRIO) : c.Exclusive := by
  refine reachable_invariant pcpScheduler_lawful Config.Exclusive ?_ ?_ hreach
  · refine ⟨fun _ => rfl, fun r q howner => ?_, fun q _ => hprio q⟩
    cases howner
  · intro c next hstate hwf heffect hexclusive
    exact heffect.exclusive hscript hstate hprio hwf hexclusive

/-- **PCP never blocks on non-nested uses.** Every call of `pcp_acquire` is granted, nobody is
ever on a wait queue, and `prio_schedule` returns the owner of a resource in every tick. -/
theorem pcp_never_blocks (hprio : ∀ p, (script p).prio < MAX_PRIO) :
    (∀ p skipped rs todo, c.pc = .acquire p skipped (rs :: todo) →
      rs.atAge = (c.sim.procs p).age → (pcpAcquire c.sim p rs.resourceId).1 = true) ∧
    (∀ r, (c.sim.resources r).waitqueue = []) ∧
    (c.pc = .iterate → ∀ r q, (c.sim.resources r).owner = some q →
      ∃ after, prioSchedule (__forkOnSchedule c.sim) = .ok (some q, after)) := by
  have hexclusive := reachable_exclusive hscript hreach hprio
  refine ⟨fun p skipped rs todo hpc hage => ?_, hexclusive.idle, fun hpc r q howner => ?_⟩
  · obtain ⟨pc, s⟩ := c
    obtain rfl : pc = .acquire p skipped (rs :: todo) := hpc
    have hfree := request_free hscript hreach rfl hexclusive hage rs.resourceId
    simp only [pcpAcquire, hfree]
  · have hqueued := (reachable_wellFormed pcpScheduler_lawful hreach).queued
    obtain ⟨next, queue, heq, hchosen⟩ :=
      pcpScheduler_lawful.schedule (__forkOnSchedule c.sim) fun q hq =>
        ((forkOnSchedule_queued hqueued).ready q hq).2
    obtain rfl := chosen_owner hscript hreach hpc hexclusive hchosen howner
    exact ⟨_, heq⟩

end NonNested

/-- While the first process of `exchanged` holds its first resource, `prio_schedule` returns
it. -/
theorem pcp_never_blocks_exchanged :
    ∃ after, prioSchedule (__forkOnSchedule (pcpScheduler.next^[6] exchanged.start).sim) =
      .ok (some 0, after) := by
  have hreach : (pcpScheduler.machine exchanged).Reachable
      (pcpScheduler.next^[6] exchanged.start) := Machine.reachable_iterate _ _ 6
  exact (pcp_never_blocks exchanged_nonNested hreach (by decide)).2.2 (by decide +kernel) 0 0
    (by decide +kernel)

end OperatingSystem.Sched
