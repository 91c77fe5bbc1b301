import OperatingSystem.SchedQueues

/-!
# Holding times

An entry keeps its age and its resource from the script. While it is held, its
remaining duration and the age of its process add up to the end that the script gives;
in the release loop the entries to come are one tick late.
-/

namespace OperatingSystem.Sched

variable {n : Nat} {policy : Policy n}

/-- A held entry, `late` ticks behind the end that its line gives. -/
def OnTime (description : Description) (age : Nat) (late : Int) (rs : ResourceSchedule) : Prop :=
  ∃ line, description.acquires[rs.node]? = some line ∧ line.resourceId = rs.resourceId ∧
    line.atAge = rs.atAge ∧ rs.duration + age = line.atAge + line.duration + late ∧
    rs.atAge + late ≤ age

section OnTime

variable {description : Description} {age : Nat} {late : Int} {rs : ResourceSchedule}

theorem onTime_of_granted (hline : description.acquires[rs.node]? = some rs.toAcquire)
    (hage : rs.atAge = age) : OnTime description age 0 rs :=
  ⟨rs.toAcquire, hline, rfl, rfl, by omega, by omega⟩

theorem OnTime.grow (htime : OnTime description age 0 rs) :
    OnTime description (age + 1) 1 rs := by
  obtain ⟨line, hline, hresource, hat, hend, hstart⟩ := htime
  exact ⟨line, hline, hresource, hat, by omega, by omega⟩

theorem OnTime.countDown (htime : OnTime description age 1 rs) :
    OnTime description age 0 rs.countDown := by
  obtain ⟨line, hline, hresource, hat, hend, hstart⟩ := htime
  refine ⟨line, hline, hresource, hat, ?_, ?_⟩
  · simp only [ResourceSchedule.countDown]
    omega
  · simp only [ResourceSchedule.countDown]
    omega

end OnTime

/-- What a process keeps of its description. -/
structure Process.Follows (description : Description) (process : Process) : Prop where
  lifespan : process.lifespan = description.lifespan
  prioOrig : process.prioOrig = description.prio
  pending : ∀ rs ∈ process.resourcesToAcquire,
    description.acquires[rs.node]? = some rs.toAcquire

/-- All held entries of a process are on time. -/
def Process.HoldsOnTime (description : Description) (process : Process) : Prop :=
  ∀ rs ∈ process.resourcesHolding, OnTime description process.age 0 rs

def Pc.Timed (script : Script n) (s : Sim n) : Pc n → Prop
  | .release p kept todo =>
      (∀ q, q ≠ p → (s.procs q).HoldsOnTime (script q)) ∧
      (∀ rs ∈ kept, OnTime (script p) (s.procs p).age 0 rs) ∧
      (∀ rs ∈ todo, OnTime (script p) (s.procs p).age 1 rs)
  | _ => ∀ q, (s.procs q).HoldsOnTime (script q)

structure Config.Timed (script : Script n) (c : Config n) : Prop where
  follows : ∀ q, (c.sim.procs q).Follows (script q)
  holding : c.pc.Timed script c.sim

/-- Forking and turns change statuses only. -/
theorem Turn.procs {s after : Sim n} {next : Option (Fin n)} (hqueued : s.Queued)
    (hturn : Turn policy (__forkOnSchedule s) next after) (q : Fin n) :
    after.procs q = { s.procs q with status := (after.procs q).status } := by
  have hframe := hturn.frame q
  rwa [forkOnSchedule_procs hqueued] at hframe

/-- The process that is about to age. -/
def Pc.growing : Pc n → Option (Fin n)
  | .acquire p _ [] => some p
  | _ => none

/-- A process that has come to the end of its entries requests none. -/
theorem Config.WellFormed.request_passed {c : Config n} (hwf : c.WellFormed) {q : Fin n}
    (hgrowing : c.pc.growing = some q) : (c.sim.procs q).request = none := by
  obtain ⟨pc, s⟩ := c
  cases pc with
  | acquire p skipped todo =>
      cases todo with
      | nil =>
          obtain rfl : p = q := Option.some.inj hgrowing
          obtain ⟨-, hpending, hskipped, -⟩ := hwf.shaped
          rw [List.append_nil] at hpending
          exact request_of_passed hpending hskipped
      | cons rs todo => cases hgrowing
  | iterate | release | finished | failed => cases hgrowing

/-- What a step can do to the entries of a process `q`, which is `process` afterwards. -/
inductive Config.Moves (c : Config n) (q : Fin n) (process : Process) : Prop
  | stay (hpending : process.resourcesToAcquire = (c.sim.procs q).resourcesToAcquire)
      (hholding : process.resourcesHolding = (c.sim.procs q).resourcesHolding)
  | grant {skipped todo : List ResourceSchedule} {rs : ResourceSchedule}
      (hpc : c.pc = .acquire q skipped (rs :: todo)) (hage : rs.atAge = (c.sim.procs q).age)
      (hsplit : (c.sim.procs q).resourcesToAcquire = skipped ++ rs :: todo)
      (hpending : process.resourcesToAcquire = skipped ++ todo)
      (hholding : process.resourcesHolding = (c.sim.procs q).resourcesHolding ++ [rs])
  | keep {kept todo : List ResourceSchedule} {rs : ResourceSchedule} (hduration : rs.duration ≠ 1)
      (hsplit : (c.sim.procs q).resourcesHolding = kept ++ rs :: todo)
      (hpending : process.resourcesToAcquire = (c.sim.procs q).resourcesToAcquire)
      (hholding : process.resourcesHolding = kept ++ rs.countDown :: todo)
  | drop {kept todo : List ResourceSchedule} {rs : ResourceSchedule} (hduration : rs.duration = 1)
      (hsplit : (c.sim.procs q).resourcesHolding = kept ++ rs :: todo)
      (hpending : process.resourcesToAcquire = (c.sim.procs q).resourcesToAcquire)
      (hholding : process.resourcesHolding = kept ++ todo)

section Step

variable {script : Script n} {c next : Config n} (hwf : c.WellFormed)
  (heffect : Effect policy c next)

include hwf heffect

/-- What a step does not change in a process. -/
theorem Effect.fixed (q : Fin n) :
    (next.sim.procs q).lifespan = (c.sim.procs q).lifespan ∧
      (next.sim.procs q).startsAt = (c.sim.procs q).startsAt ∧
      (next.sim.procs q).prioOrig = (c.sim.procs q).prioOrig := by
  cases heffect with
  | @finish s after hturn | @idle s after hturn | @dispatch s after _ hturn =>
      show (after.procs q).lifespan = _ ∧ (after.procs q).startsAt = _ ∧
        (after.procs q).prioOrig = _
      rw [hturn.procs hwf.queued]
      exact ⟨rfl, rfl, rfl⟩
  | refuse | skip | finished | failed | tick => exact ⟨rfl, rfl, rfl⟩
  | @grant s =>
      rw [s.granted_frame]
      exact ⟨rfl, rfl, rfl⟩
  | @block s =>
      rw [s.blocked_frame]
      exact ⟨rfl, rfl, rfl⟩
  | @grow s =>
      rw [s.grow_frame]
      exact ⟨rfl, rfl, rfl⟩
  | @keep s =>
      rw [s.setHolding_frame]
      exact ⟨rfl, rfl, rfl⟩
  | @drop s =>
      rw [s.freed_frame]
      exact ⟨rfl, rfl, rfl⟩
  | wake =>
      rw [Sim.moveToReady_frame, Sim.freed_frame]
      exact ⟨rfl, rfl, rfl⟩

theorem Effect.age (q : Fin n) : (next.sim.procs q).age =
    (c.sim.procs q).age + if c.pc.growing = some q then 1 else 0 := by
  cases heffect with
  | @finish s after hturn | @idle s after hturn | @dispatch s after _ hturn =>
      show (after.procs q).age = _
      rw [hturn.procs hwf.queued]
      rfl
  | refuse | skip | finished | failed | tick => rfl
  | @grant s =>
      rw [s.granted_frame]
      rfl
  | @block s =>
      rw [s.blocked_frame]
      rfl
  | @grow s p =>
      by_cases hq : q = p
      · simp [Pc.growing, hq]
      · simp [s.grow_of_ne p hq, Pc.growing, Ne.symm hq]
  | @keep s =>
      rw [s.setHolding_frame]
      rfl
  | @drop s =>
      rw [s.freed_frame]
      rfl
  | wake =>
      rw [Sim.moveToReady_frame, Sim.freed_frame]
      rfl

/-- The entries of a process change only while it acquires or releases. -/
theorem Effect.moves (q : Fin n) : c.Moves q (next.sim.procs q) := by
  cases heffect with
  | @finish s after hturn | @idle s after hturn | @dispatch s after _ hturn =>
      show Config.Moves _ q (after.procs q)
      rw [hturn.procs hwf.queued]
      exact .stay rfl rfl
  | refuse | skip | finished | failed | tick => exact .stay rfl rfl
  | @grant s p skipped todo rs hage =>
      by_cases hq : q = p
      · subst hq
        rw [s.granted_self]
        exact .grant rfl hage hwf.shaped.2.1 rfl rfl
      · rw [s.granted_of_ne p _ rs _ hq]
        exact .stay rfl rfl
  | @block s =>
      rw [s.blocked_frame]
      exact .stay rfl rfl
  | @grow s =>
      rw [s.grow_frame]
      exact .stay rfl rfl
  | @keep s p kept todo rs hduration =>
      by_cases hq : q = p
      · subst hq
        rw [s.setHolding_self]
        exact .keep hduration hwf.shaped.2 rfl rfl
      · rw [s.setHolding_of_ne p _ hq]
        exact .stay rfl rfl
  | @drop s p kept todo rs _ hduration =>
      by_cases hq : q = p
      · subst hq
        rw [s.freed_self]
        exact .drop hduration hwf.shaped.2 rfl rfl
      · rw [s.freed_of_ne p _ _ _ hq]
        exact .stay rfl rfl
  | @wake s p _ _ _ kept todo rs _ hduration =>
      rw [Sim.moveToReady_frame]
      by_cases hq : q = p
      · subst hq
        rw [s.freed_self]
        exact .drop hduration hwf.shaped.2 rfl rfl
      · rw [s.freed_of_ne p _ _ _ hq]
        exact .stay rfl rfl

/-- No entry becomes pending again. -/
theorem Effect.pending_subset (q : Fin n) :
    (next.sim.procs q).resourcesToAcquire ⊆ (c.sim.procs q).resourcesToAcquire := by
  cases heffect.moves hwf q with
  | stay hpending | keep _ _ hpending | drop _ _ hpending =>
      rw [hpending]
      exact List.Subset.refl _
  | grant _ _ hsplit hpending =>
      rw [hsplit, hpending]
      exact List.append_subset.mpr ⟨by simp, by simp⟩

theorem Effect.follows (hfollows : ∀ q, (c.sim.procs q).Follows (script q)) (q : Fin n) :
    (next.sim.procs q).Follows (script q) := by
  obtain ⟨hlifespan, -, hprio⟩ := heffect.fixed hwf q
  exact ⟨hlifespan.trans (hfollows q).lifespan, hprio.trans (hfollows q).prioOrig,
    fun rs hrs => (hfollows q).pending rs (heffect.pending_subset hwf q hrs)⟩

theorem Effect.timed (htimed : c.Timed script) : next.Timed script := by
  obtain ⟨hfollows, hholding⟩ := htimed
  refine ⟨heffect.follows hwf hfollows, ?_⟩
  cases heffect with
  | @finish s after hturn | @idle s after hturn | @dispatch s after _ hturn =>
      intro q
      show (after.procs q).HoldsOnTime (script q)
      rw [hturn.procs hwf.queued]
      exact hholding q
  | refuse | skip | finished | failed => exact hholding
  | @grant s p skipped todo rs hage hfree =>
      intro q
      by_cases hq : q = p
      · subst hq
        show ((s.granted q _ rs _).procs q).HoldsOnTime (script q)
        rw [s.granted_self q]
        intro other hother
        rcases List.mem_append.mp hother with hother | hother
        · exact hholding q other hother
        · obtain rfl := List.mem_singleton.mp hother
          have hline := (hfollows q).pending other (by rw [hwf.shaped.2.1]; simp)
          exact onTime_of_granted hline hage
      · show ((s.granted p _ rs _).procs q).HoldsOnTime (script q)
        rw [s.granted_of_ne p _ rs _ hq]
        exact hholding q
  | @block s p =>
      intro q
      show ((s.blocked p _ _).procs q).HoldsOnTime (script q)
      rw [s.blocked_frame]
      exact hholding q
  | @grow s p =>
      refine ⟨fun q hq => ?_, by simp, fun rs hrs => ?_⟩
      · rw [s.grow_of_ne p hq]
        exact hholding q
      · rw [s.grow_self p]
        exact (hholding p rs hrs).grow
  | @keep s p kept todo rs hduration =>
      obtain ⟨hothers, hkept, htodo⟩ := hholding
      have hage : ((s.setHolding p (kept ++ rs.countDown :: todo)).procs p).age =
          (s.procs p).age := by rw [s.setHolding_frame]
      refine ⟨fun q hq => ?_, fun other hother => ?_, fun other hother => ?_⟩
      · rw [s.setHolding_of_ne p _ hq]
        exact hothers q hq
      · rw [hage]
        rcases List.mem_append.mp hother with hother | hother
        · exact hkept other hother
        · obtain rfl := List.mem_singleton.mp hother
          exact (htodo rs List.mem_cons_self).countDown
      · rw [hage]
        exact htodo other (List.mem_cons_of_mem _ hother)
  | @drop s p kept todo rs =>
      obtain ⟨hothers, hkept, htodo⟩ := hholding
      refine ⟨fun q hq => ?_, ?_, ?_⟩
      · rw [s.freed_of_ne p _ _ _ hq]
        exact hothers q hq
      · rw [s.freed_frame]
        exact hkept
      · rw [s.freed_frame]
        exact fun other hother => htodo other (List.mem_cons_of_mem _ hother)
  | @wake s p _ _ _ kept todo rs =>
      obtain ⟨hothers, hkept, htodo⟩ := hholding
      refine ⟨fun q hq => ?_, ?_, ?_⟩
      · rw [Sim.moveToReady_frame, s.freed_of_ne p _ _ _ hq]
        exact hothers q hq
      · rw [Sim.moveToReady_frame, s.freed_frame]
        exact hkept
      · rw [Sim.moveToReady_frame, s.freed_frame]
        exact fun other hother => htodo other (List.mem_cons_of_mem _ hother)
  | @tick s p kept =>
      obtain ⟨hothers, hkept, -⟩ := hholding
      intro q
      by_cases hq : q = p
      · subst hq
        intro rs hrs
        have hlist : (s.procs q).resourcesHolding = kept ++ [] := hwf.shaped.2
        rw [List.append_nil] at hlist
        exact hkept rs (hlist ▸ hrs)
      · exact hothers q hq

end Step

theorem start_timed (script : Script n) : script.start.Timed script := by
  refine ⟨fun q => ⟨rfl, rfl, fun rs hrs => ?_⟩, fun q rs hrs => ?_⟩
  · obtain ⟨i, hi, heq⟩ := List.mem_mapIdx.mp hrs
    rw [← heq]
    exact List.getElem?_eq_getElem hi
  · simp [Script.start, Script.load, Description.process] at hrs

theorem reachable_timed {sched : Scheduler n} (hlaw : Lawful sched policy) {script : Script n}
    {c : Config n} (hreach : (sched.machine script).Reachable c) : c.Timed script :=
  reachable_invariant hlaw _ (start_timed script)
    (fun _ _ _ hwf heffect htimed => heffect.timed hwf htimed) hreach

/-- The owner of a resource is the process that holds exactly one entry for it. -/
theorem Sim.Owned.owner_iff_count {s : Sim n} (howned : s.Owned) (r : Fin NR_RESOURCES)
    (p : Fin n) : (s.resources r).owner = some p ↔
      (s.procs p).resourcesHolding.countP (fun rs => rs.resourceId = r) = 1 := by
  have hcount : (s.procs p).resourcesHolding.countP (fun rs => rs.resourceId = r) =
      (s.procs p).held.count r := by
    rw [Process.held, List.count, List.countP_map]
    rfl
  rw [howned.owner, hcount]
  constructor
  · exact List.count_eq_one_of_mem (howned.nodup p)
  · intro hone
    exact List.count_pos_iff.mp (by omega)

/-- **Exclusive ownership and exact holding times.** At the head of the main loop a
resource is owned by the one process that holds one entry for it, and for a held entry
the remaining duration and the age of the process add up to the scripted end; so an
entry is released when its process reaches that age. -/
theorem exclusive_holding {sched : Scheduler n} (hsched : sched ∈ schedulers n)
    {script : Script n} {c : Config n} (hreach : (sched.machine script).Reachable c) :
    (c.pc = .iterate →
      (∀ r p, (c.sim.resources r).owner = some p ↔
        (c.sim.procs p).resourcesHolding.countP (fun rs => rs.resourceId = r) = 1) ∧
      (∀ r p, (c.sim.resources r).owner = some p →
        ∀ q, q ≠ p → ∀ rs ∈ (c.sim.procs q).resourcesHolding, rs.resourceId ≠ r) ∧
      (∀ p, ∀ rs ∈ (c.sim.procs p).resourcesHolding, ∃ line,
        (script p).acquires[rs.node]? = some line ∧ line.resourceId = rs.resourceId ∧
        line.atAge = rs.atAge ∧
        rs.duration + (c.sim.procs p).age = line.atAge + line.duration)) ∧
    (∀ p kept rs todo, c.pc = .release p kept (rs :: todo) → rs.duration = 1 → ∃ line,
      (script p).acquires[rs.node]? = some line ∧ line.resourceId = rs.resourceId ∧
      line.atAge = rs.atAge ∧ (c.sim.procs p).age = line.atAge + line.duration) := by
  obtain ⟨policy, hlaw⟩ := schedulers_lawful hsched
  have howned := (reachable_wellFormed hlaw hreach).owned
  have hholding := (reachable_timed hlaw hreach).holding
  constructor
  · intro hpc
    rw [hpc] at hholding
    refine ⟨howned.owner_iff_count, ?_, ?_⟩
    · rintro r p howner q hq rs hrs rfl
      have hheld : rs.resourceId ∈ (c.sim.procs q).held := List.mem_map_of_mem hrs
      have hother := (howned.owner _ q).mpr hheld
      rw [howner] at hother
      exact hq (Option.some.inj hother).symm
    · intro p rs hrs
      obtain ⟨line, hline, hresource, hat, hend, -⟩ := hholding p rs hrs
      exact ⟨line, hline, hresource, hat, by omega⟩
  · intro p kept rs todo hpc hduration
    rw [hpc] at hholding
    obtain ⟨line, hline, hresource, hat, hend, -⟩ := hholding.2.2 rs List.mem_cons_self
    exact ⟨line, hline, hresource, hat, by omega⟩

/-- After its first tick the first process of `contended` holds one entry for each of its
two resources. -/
theorem exclusive_holding_contended :
    let c := pipScheduler.next^[7] contended.start
    (c.sim.procs 0).resourcesHolding.countP (fun rs => rs.resourceId = 0) = 1 ∧
      (c.sim.procs 0).resourcesHolding.countP (fun rs => rs.resourceId = 1) = 1 := by
  intro c
  have hreach : (pipScheduler.machine contended).Reachable c := Machine.reachable_iterate _ _ 7
  have howner := ((exclusive_holding (by simp [schedulers]) hreach).1 (by decide +kernel)).1
  exact ⟨(howner 0 0).mp (by decide +kernel), (howner 1 0).mp (by decide +kernel)⟩

end OperatingSystem.Sched
