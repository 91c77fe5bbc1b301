import OperatingSystem.SchedWakeup
import Mathlib.Order.Bounds.Basic

/-!
# Priority inheritance

The priorities that a process inherits from those that wait for it, and what the
callbacks of `pip_scheduler` make of them on any script. `pip_acquire` raises the owner
of the requested resource, and nobody further along the chain of owners.
`prio_release` takes back everything that was inherited, also what the waiters for the
other resources of the process still give.
-/

namespace OperatingSystem.Sched

variable {n : Nat}

/-- The priorities of which a process is to run at the greatest: its own, and those of
the processes that wait for a resource it owns. -/
def Sim.owed (s : Sim n) (q : Fin n) : Set Nat :=
  insert (s.procs q).prioOrig
    {prio | ∃ r, (s.resources r).owner = some q ∧
      ∃ x ∈ (s.resources r).waitqueue, s.prio x = prio}

/-- The owner of a resource, the process that it waits for, and so on. -/
def Sim.OnChain (s : Sim n) (r : Fin NR_RESOURCES) (q : Fin n) : Prop :=
  ∃ owner, (s.resources r).owner = some owner ∧ Relation.ReflTransGen s.WaitsFor owner q

theorem isGreatest_insert_self {κ : Type*} [Preorder κ] {a : κ} {S : Set κ} :
    IsGreatest (insert a S) a ↔ ∀ b ∈ S, b ≤ a := by
  constructor
  · intro hgreatest b hb
    exact hgreatest.2 (Set.mem_insert_of_mem a hb)
  · intro hbound
    refine ⟨Set.mem_insert a S, ?_⟩
    rintro b (rfl | hb)
    · exact le_rfl
    · exact hbound b hb

section Owed

variable {s after : Sim n} {p q : Fin n}

theorem owed_congr (horig : (after.procs q).prioOrig = (s.procs q).prioOrig)
    (howner : ∀ r, (after.resources r).owner = some q ↔ (s.resources r).owner = some q)
    (hqueue : ∀ r, (s.resources r).owner = some q →
      (after.resources r).waitqueue = (s.resources r).waitqueue)
    (hprio : ∀ r, (s.resources r).owner = some q → ∀ x ∈ (s.resources r).waitqueue,
      after.prio x = s.prio x) : after.owed q = s.owed q := by
  rw [Sim.owed, Sim.owed, horig]
  congr 1
  ext prio
  constructor
  · rintro ⟨r, hr, x, hx, rfl⟩
    have hr := (howner r).mp hr
    rw [hqueue r hr] at hx
    exact ⟨r, hr, x, hx, (hprio r hr x hx).symm⟩
  · rintro ⟨r, hr, x, hx, rfl⟩
    exact ⟨r, (howner r).mpr hr, x, by rwa [hqueue r hr], hprio r hr x hx⟩

theorem owed_of_idle (hidle : ∀ r, (s.resources r).owner ≠ some q) :
    s.owed q = {(s.procs q).prioOrig} := by
  have hnone : {prio | ∃ r, (s.resources r).owner = some q ∧
      ∃ x ∈ (s.resources r).waitqueue, s.prio x = prio} = ∅ := by
    refine Set.eq_empty_iff_forall_notMem.mpr ?_
    rintro prio ⟨r, hr, -⟩
    exact hidle r hr
  rw [Sim.owed, hnone, insert_empty_eq]

theorem moveToReady_owed {r : Fin NR_RESOURCES} (hfree : (s.resources r).owner = none)
    (waiter q : Fin n) : (s.moveToReady r waiter).owed q = s.owed q := by
  refine owed_congr ?_ (fun r' => by rw [s.moveToReady_owner]) ?_ fun _ _ _ _ => ?_
  · rw [s.moveToReady_frame]
  · intro r' hr'
    have hne : r' ≠ r := by
      rintro rfl
      rw [hfree] at hr'
      cases hr'
    rw [s.moveToReady_waitqueue, if_neg hne]
  · rw [s.moveToReady_prio]

variable {prios : Fin n → Nat} {r : Fin NR_RESOURCES} {holding : List ResourceSchedule}
  (hwaits : ∀ r, p ∉ (s.resources r).waitqueue) (hprios : ∀ q, q ≠ p → prios q = s.prio q)

include hwaits hprios

/-- A release leaves to its process what the other waiters give. -/
theorem freed_owed_self : (s.freed p prios r holding).owed p =
    insert (s.procs p).prioOrig {prio | ∃ r', r' ≠ r ∧ (s.resources r').owner = some p ∧
      ∃ x ∈ (s.resources r').waitqueue, s.prio x = prio} := by
  have hprio : ∀ r', ∀ x ∈ (s.resources r').waitqueue, prios x = s.prio x := by
    intro r' x hx
    exact hprios x fun heq => hwaits r' (heq ▸ hx)
  rw [Sim.owed, s.freed_frame, s.freed_prio]
  congr 1
  ext prio
  simp only [s.freed_owner, s.freed_waitqueue, Set.mem_ofPred_eq]
  constructor
  · rintro ⟨r', hr', x, hx, rfl⟩
    by_cases hr : r' = r
    · simp [hr] at hr'
    · exact ⟨r', hr, by simpa [hr] using hr', x, hx, (hprio r' x hx).symm⟩
  · rintro ⟨r', hr, hr', x, hx, rfl⟩
    exact ⟨r', by simpa [hr] using hr', x, hx, hprio r' x hx⟩

theorem freed_owed_of_ne (howner : (s.resources r).owner = some p) (hq : q ≠ p) :
    (s.freed p prios r holding).owed q = s.owed q := by
  refine owed_congr ?_ (fun r' => ?_) (fun r' _ => by simp) fun r' _ x hx => ?_
  · rw [s.freed_frame]
  · rw [s.freed_owner]
    by_cases hr : r' = r
    · simp [hr, howner, Ne.symm hq]
    · rw [if_neg hr]
  · rw [s.freed_prio]
    exact hprios x fun heq => hwaits r' (heq ▸ hx)

end Owed

/-! ## Blocking -/

theorem pipAcquire_prio {s after : Sim n} {h : Fin n} {r : Fin NR_RESOURCES}
    (hblocks : pipAcquire s h r = (false, after)) :
    ∃ owner, (s.resources r).owner = some owner ∧
      after.prio = Function.update s.prio owner (max (s.prio owner) (s.prio h)) := by
  cases howner : (s.resources r).owner with
  | none => simp [pipAcquire, howner] at hblocks
  | some owner =>
      have hblock := pipScheduler_lawful.acquire_owned s h r owner howner
      obtain rfl := congrArg Prod.snd (hblock.symm.trans hblocks)
      exact ⟨owner, rfl, s.blocked_prio h (pipPolicy.blocked s h owner) r⟩

/-- **Inheritance stops at the owner.** A request that blocks raises the owner of the
resource to the priority of its waiter and changes no other priority, so the chain of
owners has at least that priority if and only if all but the owner had it before. -/
theorem pipAcquire_blocks {s after : Sim n} {h : Fin n} {r : Fin NR_RESOURCES}
    (hblocks : pipAcquire s h r = (false, after)) :
    ∃ owner, (s.resources r).owner = some owner ∧
      after.prio owner = max (s.prio owner) (s.prio h) ∧
      (∀ p, p ≠ owner → after.prio p = s.prio p) ∧
      ((∀ p, after.OnChain r p → s.prio h ≤ after.prio p) ↔
        ∀ p, after.OnChain r p → p ≠ owner → s.prio h ≤ s.prio p) := by
  obtain ⟨owner, howner, hprio⟩ := pipAcquire_prio hblocks
  have hself : after.prio owner = max (s.prio owner) (s.prio h) := by
    rw [hprio, Function.update_self]
  have hother : ∀ p, p ≠ owner → after.prio p = s.prio p := by
    intro p hp
    rw [hprio, Function.update_of_ne hp]
  refine ⟨owner, howner, hself, hother, ?_, ?_⟩
  · intro hchain p hp hne
    rw [← hother p hne]
    exact hchain p hp
  · intro hchain p hp
    by_cases hne : p = owner
    · rw [hne, hself]
      exact le_max_right _ _
    · rw [hother p hne]
      exact hchain p hp hne

/-- Three processes: the second waits for the first when the third requests what the
second owns. -/
def nested : Script 3 :=
  ![⟨1, 0, 4, 1, [⟨0, 0, 4⟩]⟩,
    ⟨2, 1, 4, 5, [⟨1, 0, 4⟩, ⟨0, 1, 2⟩]⟩,
    ⟨3, 3, 3, 10, [⟨1, 0, 1⟩]⟩]

/-- In `nested` the third process raises the second. -/
theorem pipAcquire_blocks_nested :
    let s := (pipScheduler.next^[14] nested.start).sim
    (pipAcquire s 2 1).2.prio 1 = max (s.prio 1) (s.prio 2) := by
  intro s
  have hblocks : pipAcquire s 2 1 = (false, (pipAcquire s 2 1).2) :=
    Prod.ext (by decide +kernel) rfl
  obtain ⟨owner, howner, hprio, -⟩ := pipAcquire_blocks hblocks
  have hsecond : (s.resources 1).owner = some 1 := by decide +kernel
  obtain rfl : owner = 1 := Option.some.inj (howner.symm.trans hsecond)
  exact hprio

/-- The first process of `nested` is on the chain, and keeps its priority. -/
theorem inheritance_not_transitive :
    let c := pipScheduler.next^[14] nested.start
    (pipScheduler.machine nested).Reachable c ∧
      c.pc = .acquire 2 [] [⟨⟨1, 0, 1⟩, 0⟩] ∧ (c.sim.procs 2).age = 0 ∧
      (pipAcquire c.sim 2 1).1 = false ∧ (pipAcquire c.sim 2 1).2.OnChain 1 0 ∧
      (pipAcquire c.sim 2 1).2.prio 0 < (pipAcquire c.sim 2 1).2.prio 2 := by
  refine ⟨Machine.reachable_iterate _ _ 14, by decide +kernel, by decide +kernel,
    by decide +kernel, ?_, by decide +kernel⟩
  exact ⟨1, by decide +kernel, .single ⟨0, by decide +kernel, by decide +kernel⟩⟩

/-! ## Releasing -/

section Release

variable {s : Sim n} {p : Fin n} {r : Fin NR_RESOURCES}

/-- `prio_release` frees the resource and may wake one of its waiters. -/
theorem prioRelease_freed (hqueued : s.Queued) (hruns : s.Runs p)
    (howner : (s.resources r).owner = some p) (holding : List ResourceSchedule) :
    ∃ after, prioRelease (s.setHolding p holding) p r = .ok after ∧
      let freed := s.freed p (Function.update s.prio p (s.procs p).prioOrig) r holding
      (after = freed ∨ ∃ waiter, after = freed.moveToReady r waiter) := by
  have hprios : pcpPolicy.released (s.setHolding p holding) p =
      Function.update s.prio p (s.procs p).prioOrig := by
    simp [pcpPolicy, s.setHolding_prio]
  cases hqueue : (s.resources r).waitqueue with
  | nil =>
      refine ⟨_, prioRelease_idle _ p r howner hqueue, .inl ?_⟩
      rw [hprios]
      rfl
  | cons first rest =>
      have hrelease := prioRelease_wake (s.setHolding p holding) p r first rest howner hqueue
      rw [hprios] at hrelease
      let freed := s.freed p (Function.update s.prio p (s.procs p).prioOrig) r holding
      let waiter := pcpPolicy.waiter freed first rest
      have hmem : waiter ∈ (s.resources r).waitqueue :=
        hqueue ▸ pcpScheduler_lawful.waiter_mem freed first rest
      have hne : waiter ≠ p := by
        intro heq
        exact hqueued.not_linked hruns.2 (.inr (.inr ⟨r, heq ▸ hmem⟩))
      have hwait : (freed.procs waiter).status = .wait := by
        rw [s.freed_of_ne p _ r holding hne]
        exact (hqueued.wait r waiter hmem).1
      exact ⟨freed.moveToReady r waiter, hrelease.trans (if_pos hwait), .inr ⟨waiter, rfl⟩⟩

end Release

/-- **Priority after a release.** When `prio_release` returns, the priority of the
process is the greatest that it owes if and only if no waiter for another resource that
it owns is more important than the process was at first. -/
theorem release_priority {script : Script n} {c : Config n}
    (hreach : (pipScheduler.machine script).Reachable c) {p : Fin n}
    {kept todo : List ResourceSchedule} {rs : ResourceSchedule}
    (hpc : c.pc = .release p kept (rs :: todo)) :
    ∃ after, prioRelease (c.sim.setHolding p (kept ++ rs.countDown :: todo)) p rs.resourceId =
        .ok after ∧
      (IsGreatest (after.owed p) (after.prio p) ↔
        ∀ r, r ≠ rs.resourceId → (c.sim.resources r).owner = some p →
          ∀ x ∈ (c.sim.resources r).waitqueue, c.sim.prio x ≤ (c.sim.procs p).prioOrig) := by
  obtain ⟨hqueued, howned, hshaped⟩ := reachable_wellFormed pipScheduler_lawful hreach
  rw [hpc] at hshaped
  obtain ⟨hruns, hholding⟩ := hshaped
  have howner : (c.sim.resources rs.resourceId).owner = some p :=
    (howned.owner _ p).mpr (by simp [Process.held, hholding])
  obtain ⟨after, hrelease, hafter⟩ :=
    prioRelease_freed hqueued hruns howner (kept ++ rs.countDown :: todo)
  refine ⟨after, hrelease, ?_⟩
  let prios := Function.update c.sim.prio p (c.sim.procs p).prioOrig
  let freed := c.sim.freed p prios rs.resourceId (kept ++ rs.countDown :: todo)
  have hwaits : ∀ r, p ∉ (c.sim.resources r).waitqueue := fun r hwait =>
    hqueued.not_linked hruns.2 (.inr (.inr ⟨r, hwait⟩))
  have hprios : ∀ q, q ≠ p → prios q = c.sim.prio q := fun q hq => Function.update_of_ne hq _ _
  have hfree : (freed.resources rs.resourceId).owner = none := by
    simp [freed, c.sim.freed_owner]
  -- the woken process waited for the released resource
  have howed : after.owed p = freed.owed p ∧ after.prio = freed.prio := by
    rcases hafter with rfl | ⟨waiter, rfl⟩
    · exact ⟨rfl, rfl⟩
    · exact ⟨moveToReady_owed hfree waiter p, freed.moveToReady_prio waiter rs.resourceId⟩
  have hself : freed.prio p = (c.sim.procs p).prioOrig := by
    rw [c.sim.freed_prio]
    exact Function.update_self _ _ _
  rw [howed.1, howed.2, hself, freed_owed_self hwaits hprios, isGreatest_insert_self]
  constructor
  · intro hbound r hr hr' x hx
    exact hbound _ ⟨r, hr, hr', x, hx, rfl⟩
  · rintro hbound prio ⟨r, hr, hr', x, hx, rfl⟩
    exact hbound r hr hr' x hx

/-- The first process of `contended` releases its last resource at step 16. -/
theorem release_priority_contended :
    let s := (pipScheduler.next^[16] contended.start).sim
    ∃ after, prioRelease (s.setHolding 0 [⟨⟨0, 0, 0⟩, 0⟩]) 0 0 = .ok after ∧
      IsGreatest (after.owed 0) (after.prio 0) := by
  intro s
  have hreach : (pipScheduler.machine contended).Reachable
      (pipScheduler.next^[16] contended.start) := Machine.reachable_iterate _ _ 16
  have hpc : (pipScheduler.next^[16] contended.start).pc = .release 0 [] [⟨⟨0, 0, 1⟩, 0⟩] := by
    decide +kernel
  obtain ⟨after, hrelease, hiff⟩ := release_priority hreach hpc
  exact ⟨after, hrelease, hiff.mpr (by decide +kernel)⟩

/-- At the release of its second resource, step 12, the first process of `contended`
loses what the waiter for the first one gives. -/
theorem release_drops_inheritance :
    let c := pipScheduler.next^[12] contended.start
    (pipScheduler.machine contended).Reachable c ∧
      c.pc = .release 0 [⟨⟨0, 0, 1⟩, 0⟩] [⟨⟨1, 0, 1⟩, 1⟩] ∧
      ∃ after, prioRelease (c.sim.setHolding 0 [⟨⟨0, 0, 1⟩, 0⟩, ⟨⟨1, 0, 0⟩, 1⟩]) 0 1 = .ok after ∧
        ¬ IsGreatest (after.owed 0) (after.prio 0) := by
  intro c
  refine ⟨Machine.reachable_iterate _ _ 12, by decide +kernel, _,
    prioRelease_idle _ 0 1 (by decide +kernel) (by decide +kernel), fun hgreatest => ?_⟩
  have howed := hgreatest.2 (.inr ⟨0, by decide +kernel, 1, by decide +kernel, rfl⟩)
  exact absurd howed (by decide +kernel)

end OperatingSystem.Sched
