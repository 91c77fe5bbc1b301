import OperatingSystem.SchedInheritance

/-!
# No priority inversion without nesting

When the uses that a process makes of resources never overlap, a process that waits or
is about to acquire holds nothing. Chains of owners then have one link, and the owner
of a resource runs at least at the priority of every waiter. A resource that is free
while processes wait for it is requested by a ready process that is more important than
they are, so the process that takes it inherits nothing that it needs.
-/

namespace OperatingSystem.Sched

variable {n : Nat} {policy : Policy n}

/-- The line makes its process use the resource at an age. -/
def Acquire.Spans (line : Acquire) (age : Nat) : Prop :=
  line.atAge ≤ age ∧ (age : Int) < line.atAge + line.duration

/-- The uses of resources by one process do not overlap. -/
structure Script.NonNested (script : Script n) : Prop extends script.Regular where
  disjoint : ∀ p, (script p).acquires.Pairwise fun first second =>
    ∀ age, ¬ (first.Spans age ∧ second.Spans age)

/-- The lines of the entries that are pending or held. -/
def Process.nodes (process : Process) : List Nat :=
  (process.resourcesToAcquire ++ process.resourcesHolding).map fun rs => rs.node

/-- A process has an entry for a line once, and holds at most one entry. -/
structure Process.Single (process : Process) : Prop where
  nodes : process.nodes.Nodup
  holding : process.resourcesHolding.length ≤ 1

def Config.Single (c : Config n) : Prop := ∀ q, (c.sim.procs q).Single

/-! ## Lines and entries -/

section Lines

variable {description : Description} {process : Process}

/-- The pending entry of a request, whose line spans the age. -/
theorem Process.Follows.request_spans (hfollows : process.Follows description)
    (hlines : ∀ line ∈ description.acquires, 1 ≤ line.duration) {r : Fin NR_RESOURCES}
    (hrequest : process.request = some r) : ∃ entry ∈ process.resourcesToAcquire,
      description.acquires[entry.node]? = some entry.toAcquire ∧ entry.resourceId = r ∧
      entry.toAcquire.Spans process.age := by
  obtain ⟨entry, hfind, hresource⟩ := Option.map_eq_some_iff.mp hrequest
  have hpending := List.mem_of_find?_eq_some hfind
  have hage : entry.atAge = process.age := by simpa using List.find?_some hfind
  have hentry := hfollows.pending entry hpending
  have hduration := hlines _ (List.mem_of_getElem? hentry)
  refine ⟨entry, hpending, hentry, hresource, hage.le, ?_⟩
  omega

/-- The line of a held entry spans the age. -/
theorem Process.HoldsOnTime.spans (htime : process.HoldsOnTime description)
    (hdurations : ∀ rs ∈ process.resourcesHolding, 1 ≤ rs.duration) {rs : ResourceSchedule}
    (hrs : rs ∈ process.resourcesHolding) : ∃ line, description.acquires[rs.node]? = some line ∧
      line.resourceId = rs.resourceId ∧ line.Spans process.age := by
  obtain ⟨line, hline, hresource, hat, hend, hstart⟩ := htime rs hrs
  have hduration := hdurations rs hrs
  refine ⟨line, hline, hresource, ?_, ?_⟩
  · omega
  · omega

theorem Process.nodes_ne (hnodes : process.nodes.Nodup) {entry rs : ResourceSchedule}
    (hentry : entry ∈ process.resourcesToAcquire) (hrs : rs ∈ process.resourcesHolding) :
    entry.node ≠ rs.node := by
  rw [Process.nodes, List.map_append] at hnodes
  have hdistinct := List.disjoint_of_nodup_append hnodes
  exact fun hnode => hdistinct (List.mem_map_of_mem hentry) (hnode ▸ List.mem_map_of_mem hrs)

/-- A process that requests a resource holds none. -/
theorem Process.Follows.holds_nothing (hfollows : process.Follows description)
    (hdisjoint : description.acquires.Pairwise fun first second =>
      ∀ age, ¬ (first.Spans age ∧ second.Spans age))
    (hlines : ∀ line ∈ description.acquires, 1 ≤ line.duration)
    (hnodes : process.nodes.Nodup) (htime : process.HoldsOnTime description)
    (hdurations : ∀ rs ∈ process.resourcesHolding, 1 ≤ rs.duration) {r : Fin NR_RESOURCES}
    (hrequest : process.request = some r) : process.resourcesHolding = [] := by
  obtain ⟨entry, hpending, hentry, -, hspans⟩ := hfollows.request_spans hlines hrequest
  refine List.eq_nil_iff_forall_not_mem.mpr fun rs hrs => ?_
  obtain ⟨line, hline, -, hheld⟩ := htime.spans hdurations hrs
  -- the two entries would be for the same line
  refine Process.nodes_ne hnodes hpending hrs ?_
  refine pairwise_index hdisjoint hentry hline ?_ ?_
  · exact fun hapart => hapart _ ⟨hspans, hheld⟩
  · exact fun hapart => hapart _ ⟨hheld, hspans⟩

end Lines

/-! ## One entry at a time -/

/-- Entries only move and are dropped. -/
theorem Config.Moves.nodup {c : Config n} {q : Fin n} {process : Process}
    (hmoves : c.Moves q process) (hnodup : (c.sim.procs q).nodes.Nodup) :
    process.nodes.Nodup := by
  cases hmoves with
  | stay hpending hholding =>
      rw [Process.nodes, hpending, hholding]
      exact hnodup
  | @grant skipped todo rs _ _ hsplit hpending hholding =>
      have hmoved : process.nodes.Perm (c.sim.procs q).nodes := by
        rw [Process.nodes, Process.nodes, hpending, hholding, hsplit]
        refine List.Perm.map _ ?_
        have hperm := (List.perm_append_singleton rs
          (todo ++ (c.sim.procs q).resourcesHolding)).append_left skipped
        simpa only [List.append_assoc, List.cons_append] using hperm
      exact hmoved.nodup_iff.mpr hnodup
  | @keep kept todo rs _ hsplit hpending hholding =>
      have hsame : process.nodes = (c.sim.procs q).nodes := by
        rw [Process.nodes, Process.nodes, hpending, hholding, hsplit]
        simp [ResourceSchedule.countDown]
      rw [hsame]
      exact hnodup
  | @drop kept todo rs _ hsplit hpending hholding =>
      refine hnodup.sublist ?_
      have hfewer : (kept ++ todo).Sublist (kept ++ rs :: todo) :=
        (List.sublist_cons_self rs todo).append_left kept
      rw [Process.nodes, Process.nodes, hpending, hholding, hsplit]
      exact (hfewer.append_left _).map _

/-- A line of a process has at most one entry. -/
def Config.Distinct (c : Config n) : Prop := ∀ q, (c.sim.procs q).nodes.Nodup

theorem Effect.distinct {c next : Config n} (heffect : Effect policy c next) (hwf : c.WellFormed)
    (hdistinct : c.Distinct) : next.Distinct :=
  fun q => (heffect.moves hwf q).nodup (hdistinct q)

theorem start_distinct (script : Script n) : script.start.Distinct := by
  intro q
  have hnodes : (script.start.sim.procs q).nodes = List.range (script q).acquires.length := by
    apply List.ext_getElem
    · simp [Script.start, Script.load, Description.process, Process.nodes]
    · simp [Script.start, Script.load, Description.process, Process.nodes]
  rw [hnodes]
  exact List.nodup_range

theorem reachable_distinct {sched : Scheduler n} (hlaw : Lawful sched policy) {script : Script n}
    {c : Config n} (hreach : (sched.machine script).Reachable c) : c.Distinct :=
  reachable_invariant hlaw Config.Distinct (start_distinct script)
    (fun _ _ _ hwf heffect hdistinct => heffect.distinct hwf hdistinct) hreach

section Single

variable {script : Script n} (hscript : script.NonNested) {c next : Config n}

include hscript

/-- At a loop head where its held entries are on time, a process that requests a
resource owns none. -/
theorem Config.Single.owns_nothing (hsingle : c.Single) (hwf : c.WellFormed)
    (htimed : c.Timed script) (hprompt : c.Prompt) {q : Fin n}
    (htime : (c.sim.procs q).HoldsOnTime (script q)) {r : Fin NR_RESOURCES}
    (hrequest : (c.sim.procs q).request = some r) :
    (c.sim.procs q).resourcesHolding = [] ∧ ∀ r, (c.sim.resources r).owner ≠ some q := by
  have hnone := (htimed.follows q).holds_nothing (hscript.disjoint q) (hscript.duration q)
    (hsingle q).nodes htime (hprompt.durations q) hrequest
  refine ⟨hnone, fun r howner => ?_⟩
  have hheld := (hwf.owned.owner r q).mp howner
  simp [Process.held, hnone] at hheld

theorem Effect.single (heffect : Effect policy c next) (hwf : c.WellFormed)
    (htimed : c.Timed script) (hprompt : c.Prompt) (hsingle : c.Single) : next.Single := by
  intro q
  have hmoves := heffect.moves hwf q
  have hone := (hsingle q).holding
  refine ⟨hmoves.nodup (hsingle q).nodes, ?_⟩
  cases hmoves with
  | stay _ hholding =>
      rw [hholding]
      exact hone
  | grant hpc hage _ _ hholding =>
      obtain ⟨pc, s⟩ := c
      obtain rfl := hpc
      -- a process that requests a resource holds none
      obtain ⟨hnone, -⟩ := hsingle.owns_nothing hscript hwf htimed hprompt (htimed.holding q)
        (hwf.request_reached hage)
      rw [hholding, hnone]
      exact le_rfl
  | keep _ hsplit _ hholding =>
      rw [hsplit] at hone
      rw [hholding]
      simpa using hone
  | drop _ hsplit _ hholding =>
      rw [hsplit] at hone
      rw [hholding]
      simp only [List.length_append, List.length_cons] at hone ⊢
      omega

end Single

theorem start_single (script : Script n) : script.start.Single := fun q =>
  ⟨start_distinct script q, by simp [Script.start, Script.load, Description.process]⟩

section Runs

variable {sched : Scheduler n} (hlaw : Lawful sched policy) {script : Script n}
  (hscript : script.NonNested) {c : Config n} (hreach : (sched.machine script).Reachable c)

include hlaw hscript hreach

theorem reachable_single : c.Single :=
  reachable_invariant hlaw Config.Single (start_single script)
    (fun _ _ hstate hwf heffect hsingle => heffect.single hscript hwf
      (reachable_timed hlaw hstate) (reachable_prompt hlaw hscript.toRegular hstate) hsingle)
    hreach

/-- A process that requests a resource owns none, unless it is releasing. -/
theorem requester_owns_nothing {q : Fin n} {r : Fin NR_RESOURCES}
    (hq : ∀ kept todo, c.pc ≠ .release q kept todo)
    (hrequest : (c.sim.procs q).request = some r) (r' : Fin NR_RESOURCES) :
    (c.sim.resources r').owner ≠ some q := by
  have htimed := reachable_timed hlaw hreach
  have htime : (c.sim.procs q).HoldsOnTime (script q) := by
    have hholding := htimed.holding
    cases hpc : c.pc with
    | release p kept todo =>
        rw [hpc] at hholding
        refine hholding.1 q ?_
        rintro rfl
        exact hq kept todo hpc
    | _ =>
        rw [hpc] at hholding
        exact hholding q
  exact ((reachable_single hlaw hscript hreach).owns_nothing hscript
    (reachable_wellFormed hlaw hreach) htimed (reachable_prompt hlaw hscript.toRegular hreach)
    htime hrequest).2 r'

/-- A process on a wait queue owns nothing. -/
theorem waiter_owns_nothing {q : Fin n} {r : Fin NR_RESOURCES}
    (hwait : q ∈ (c.sim.resources r).waitqueue) (r' : Fin NR_RESOURCES) :
    (c.sim.resources r').owner ≠ some q := by
  obtain ⟨hqueued, -, hshaped⟩ := reachable_wellFormed hlaw hreach
  refine requester_owns_nothing hlaw hscript hreach ?_ (hqueued.wait r q hwait).2.2 r'
  intro kept todo hpc
  rw [hpc] at hshaped
  exact hqueued.not_linked hshaped.1.2 (.inr (.inr ⟨r, hwait⟩))

/-- At the head of the main loop the owner of a resource can run. -/
theorem owner_candidate (hpc : c.pc = .iterate) {q : Fin n} {r : Fin NR_RESOURCES}
    (howner : (c.sim.resources r).owner = some q) :
    q ∈ (__forkOnSchedule c.sim).candidates := by
  obtain ⟨hqueued, howned, hshaped⟩ := reachable_wellFormed hlaw hreach
  have hprompt := reachable_prompt hlaw hscript.toRegular hreach
  have htimed := reachable_timed hlaw hreach
  have hnotwait : ∀ r', q ∉ (c.sim.resources r').waitqueue := fun r' hwait =>
    waiter_owns_nothing hlaw hscript hreach hwait r howner
  have hholds : (c.sim.procs q).resourcesHolding ≠ [] := by
    intro hnone
    have hheld := (howned.owner r q).mp howner
    simp [Process.held, hnone] at hheld
  obtain ⟨pc, s⟩ := c
  obtain rfl : pc = .iterate := hpc
  have hprocs := forkOnSchedule_procs hqueued
  rcases reachable_located hlaw hscript.toRegular hreach q with
    hexit | (hfork | hready | ⟨r', hwait⟩) | hcurrent
  · exact absurd (howned.exited q hexit) hholds
  · exact absurd (hqueued.fork q hfork).2.2 hholds
  · exact mem_candidates.mpr (.inl (List.mem_append_left _ hready))
  · exact absurd hwait (hnotwait r')
  · rcases hshaped q hcurrent with hrun | ⟨r', hwait⟩
    · have hage : (s.procs q).age < (s.procs q).lifespan :=
        lt_of_le_of_ne (hprompt.young q hcurrent) fun hage =>
          hholds (hprompt.retired hscript.toRegular htimed hage).2.1
      refine mem_candidates.mpr (.inr ⟨running_eq_some.mpr ⟨hcurrent, ?_⟩, ?_⟩)
      · rw [hprocs, hrun]
        simp
      · rw [hprocs]
        exact hage
    · exact absurd hwait (hnotwait r')

end Runs

/-! ## Inheriting -/

/-- The process that acquires is at least as important as every waiter. -/
def Pc.Top (s : Sim n) : Pc n → Prop
  | .acquire p _ _ => ∀ r, ∀ x ∈ (s.resources r).waitqueue, s.prio x ≤ s.prio p
  | _ => True

structure Config.Inherits (c : Config n) : Prop where
  owed : ∀ q, IsGreatest (c.sim.owed q) (c.sim.prio q)
  top : c.pc.Top c.sim

/-- A process that owns nothing keeps its priority. -/
theorem Effect.prio_of_idle {c next : Config n} (heffect : Effect pipPolicy c next)
    (hwf : c.WellFormed) {q : Fin n} (hidle : ∀ r, (c.sim.resources r).owner ≠ some q) :
    next.sim.prio q = c.sim.prio q := by
  cases heffect with
  | @finish s after hturn | @idle s after hturn | @dispatch s after _ hturn =>
      show (after.procs q).prio = (s.procs q).prio
      rw [hturn.procs hwf.queued]
  | refuse | skip | tick | finished | failed => rfl
  | @grant s p =>
      show (s.granted p _ _ _).prio q = s.prio q
      rw [s.granted_prio]
      rfl
  | @block s p owner _ _ rs _ howned =>
      have hq : q ≠ owner := fun heq => hidle rs.resourceId (heq ▸ howned)
      show (s.blocked p _ _).prio q = s.prio q
      rw [s.blocked_prio]
      exact Function.update_of_ne hq _ _
  | @grow s p => exact congrFun (s.grow_prio p) q
  | @keep s p => exact congrFun (s.setHolding_prio p _) q
  | @drop s p kept todo rs prios _ hprios howner =>
      have hq : q ≠ p := fun heq => hidle rs.resourceId (heq ▸ howner)
      show (s.freed p _ _ _).prio q = s.prio q
      rw [s.freed_prio, hprios]
      exact (Function.update_of_ne hq _ _).trans (congrFun (s.setHolding_prio p _) q)
  | @wake s p _ _ _ kept todo rs prios _ hprios howner =>
      have hq : q ≠ p := fun heq => hidle rs.resourceId (heq ▸ howner)
      show ((s.freed p _ _ _).moveToReady _ _).prio q = s.prio q
      rw [Sim.moveToReady_prio, s.freed_prio, hprios]
      exact (Function.update_of_ne hq _ _).trans (congrFun (s.setHolding_prio p _) q)

theorem Turn.inherits {s after : Sim n} {next : Option (Fin n)} (hqueued : s.Queued)
    (hturn : Turn policy (__forkOnSchedule s) next after)
    (howed : ∀ q, IsGreatest (s.owed q) (s.prio q)) (q : Fin n) :
    IsGreatest (after.owed q) (after.prio q) := by
  have hresources : after.resources = s.resources := hturn.resources
  have hprio : after.prio = s.prio := funext fun q => by
    rw [Sim.prio, hturn.procs hqueued]
    rfl
  have hsame : after.owed q = s.owed q := by
    refine owed_congr ?_ (fun r => by rw [hresources]) (fun r _ => by rw [hresources])
      fun _ _ _ _ => by rw [hprio]
    rw [hturn.procs hqueued]
  rw [hsame, hprio]
  exact howed q

/-- A process takes a resource whose waiters are no more important than it is. -/
theorem granted_inherits {s : Sim n} {p : Fin n} {rs : ResourceSchedule}
    (hfree : (s.resources rs.resourceId).owner = none)
    (hidle : ∀ r, (s.resources r).owner ≠ some p)
    (htop : ∀ r, ∀ x ∈ (s.resources r).waitqueue, s.prio x ≤ s.prio p)
    (howed : ∀ q, IsGreatest (s.owed q) (s.prio q)) (pending : List ResourceSchedule) (q : Fin n) :
    IsGreatest ((s.granted p s.prio rs pending).owed q) (s.prio q) := by
  by_cases hq : q = p
  · subst hq
    have horig : s.prio q = (s.procs q).prioOrig := by
      have hmem := (howed q).1
      rwa [owed_of_idle hidle] at hmem
    rw [Sim.owed, s.granted_frame, s.granted_prio, horig, isGreatest_insert_self]
    rintro prio ⟨r, -, x, hx, rfl⟩
    rw [s.granted_waitqueue] at hx
    exact horig ▸ htop r x hx
  · have hsame : (s.granted p s.prio rs pending).owed q = s.owed q := by
      refine owed_congr ?_ (fun r => ?_) (fun r _ => by simp) fun _ _ _ _ => by rw [s.granted_prio]
      · rw [s.granted_frame]
      · rw [s.granted_owner]
        by_cases hr : r = rs.resourceId
        · simp [hr, hfree, Ne.symm hq]
        · rw [if_neg hr]
    rw [hsame]
    exact howed q

/-- A process that owns nothing joins the wait queue of a resource. -/
theorem blocked_inherits {s : Sim n} {p owner : Fin n} {r : Fin NR_RESOURCES}
    (howned : (s.resources r).owner = some owner)
    (hidle : ∀ r, (s.resources r).owner ≠ some p)
    (hwaiters : ∀ r, ∀ x ∈ (s.resources r).waitqueue, ∀ r', (s.resources r').owner ≠ some x)
    (howed : ∀ q, IsGreatest (s.owed q) (s.prio q)) (q : Fin n) :
    IsGreatest ((s.blocked p (pipPolicy.blocked s p owner) r).owed q)
      (pipPolicy.blocked s p owner q) := by
  have hkeep : ∀ x, (∀ r, (s.resources r).owner ≠ some x) →
      pipPolicy.blocked s p owner x = s.prio x := by
    intro x hx
    refine Function.update_of_ne ?_ _ _
    rintro rfl
    exact hx r howned
  by_cases hq : q = owner
  · subst hq
    have hraised : pipPolicy.blocked s p q q = max (s.prio p) (s.prio q) :=
      (Function.update_self _ _ _).trans (max_comm _ _)
    have hjoined : (s.blocked p (pipPolicy.blocked s p q) r).owed q =
        insert (s.prio p) (s.owed q) := by
      rw [Sim.owed, s.blocked_frame, s.blocked_prio, Sim.owed, Set.insert_comm]
      congr 1
      ext prio
      simp only [s.blocked_owner, s.blocked_waitqueue, Set.mem_ofPred_eq, Set.mem_insert_iff]
      constructor
      · rintro ⟨r', hr', x, hx, rfl⟩
        by_cases hr : r' = r
        · subst hr
          simp only [if_true, List.mem_append, List.mem_singleton] at hx
          rcases hx with hx | rfl
          · exact .inr ⟨r', hr', x, hx, (hkeep x (hwaiters r' x hx)).symm⟩
          · exact .inl (hkeep x hidle)
        · rw [if_neg hr] at hx
          exact .inr ⟨r', hr', x, hx, (hkeep x (hwaiters r' x hx)).symm⟩
      · rintro (rfl | ⟨r', hr', x, hx, rfl⟩)
        · exact ⟨r, howned, p, by simp, hkeep p hidle⟩
        · refine ⟨r', hr', x, ?_, hkeep x (hwaiters r' x hx)⟩
          by_cases hr : r' = r
          · simp [hr, hr ▸ hx]
          · rwa [if_neg hr]
    rw [hjoined, hraised]
    exact (howed q).insert (s.prio p)
  · have hsame : (s.blocked p (pipPolicy.blocked s p owner) r).owed q = s.owed q := by
      refine owed_congr ?_ (fun r' => by rw [s.blocked_owner]) (fun r' hr' => ?_)
        fun r' _ x hx => ?_
      · rw [s.blocked_frame]
      · have hr : r' ≠ r := by
          rintro rfl
          exact hq (Option.some.inj (hr'.symm.trans howned))
        rw [s.blocked_waitqueue, if_neg hr]
      · rw [s.blocked_prio]
        exact hkeep x (hwaiters r' x hx)
    have hother : pipPolicy.blocked s p owner q = s.prio q := Function.update_of_ne hq _ _
    rw [hsame, hother]
    exact howed q

theorem grow_inherits {s : Sim n} (howed : ∀ q, IsGreatest (s.owed q) (s.prio q)) (p q : Fin n) :
    IsGreatest ((s.grow p).owed q) ((s.grow p).prio q) := by
  have hsame : (s.grow p).owed q = s.owed q := by
    refine owed_congr ?_ (fun _ => Iff.rfl) (fun _ _ => rfl) fun _ _ _ _ => by rw [s.grow_prio]
    rw [s.grow_frame]
  rw [hsame, s.grow_prio]
  exact howed q

theorem setHolding_inherits {s : Sim n} (howed : ∀ q, IsGreatest (s.owed q) (s.prio q))
    (p : Fin n) (holding : List ResourceSchedule) (q : Fin n) :
    IsGreatest ((s.setHolding p holding).owed q) ((s.setHolding p holding).prio q) := by
  have hsame : (s.setHolding p holding).owed q = s.owed q := by
    refine owed_congr ?_ (fun _ => Iff.rfl) (fun _ _ => rfl)
      fun _ _ _ _ => by rw [s.setHolding_prio]
    rw [s.setHolding_frame]
  rw [hsame, s.setHolding_prio]
  exact howed q

/-- The entry that is released is the only one. -/
theorem Process.Single.owner_iff {s : Sim n} {p : Fin n} (hsingle : (s.procs p).Single)
    (howned : s.Owned) {kept todo : List ResourceSchedule} {rs : ResourceSchedule}
    (hholding : (s.procs p).resourcesHolding = kept ++ rs :: todo) (r : Fin NR_RESOURCES) :
    (s.resources r).owner = some p ↔ r = rs.resourceId := by
  have hone := hsingle.holding
  simp only [hholding, List.length_append, List.length_cons] at hone
  obtain rfl : kept = [] := List.length_eq_zero_iff.mp (by omega)
  obtain rfl : todo = [] := List.length_eq_zero_iff.mp (by omega)
  rw [howned.owner, Process.held, hholding]
  simp

theorem released_setHolding (s : Sim n) (p : Fin n) (holding : List ResourceSchedule) :
    pipPolicy.released (s.setHolding p holding) p = pipPolicy.released s p := by
  simp [pipPolicy, pcpPolicy, s.setHolding_prio]

/-- A process releases the only resource that it owns. -/
theorem freed_inherits {s : Sim n} {p : Fin n} {r : Fin NR_RESOURCES}
    (howner : ∀ r', (s.resources r').owner = some p ↔ r' = r)
    (hwaits : ∀ r, p ∉ (s.resources r).waitqueue)
    (howed : ∀ q, IsGreatest (s.owed q) (s.prio q)) (holding : List ResourceSchedule) (q : Fin n) :
    IsGreatest ((s.freed p (pipPolicy.released s p) r holding).owed q)
      (pipPolicy.released s p q) := by
  have hprios : ∀ q, q ≠ p → pipPolicy.released s p q = s.prio q :=
    fun q hq => Function.update_of_ne hq _ _
  by_cases hq : q = p
  · subst hq
    have horig : pipPolicy.released s q q = (s.procs q).prioOrig := Function.update_self _ _ _
    rw [freed_owed_self hwaits hprios, horig, isGreatest_insert_self]
    rintro prio ⟨r', hr, hr', -⟩
    exact absurd ((howner r').mp hr') hr
  · rw [freed_owed_of_ne hwaits hprios ((howner r).mpr rfl) hq, hprios q hq]
    exact howed q

theorem release_inherits {s : Sim n} {p : Fin n} {kept todo : List ResourceSchedule}
    {rs : ResourceSchedule} {prios : Fin n → Nat}
    (hwf : (⟨.release p kept (rs :: todo), s⟩ : Config n).WellFormed)
    (hsingle : (s.procs p).Single) (hwaits : ∀ r, p ∉ (s.resources r).waitqueue)
    (hprios : prios = pipPolicy.released (s.setHolding p (kept ++ rs.countDown :: todo)) p)
    (howed : ∀ q, IsGreatest (s.owed q) (s.prio q)) (q : Fin n) :
    IsGreatest ((s.freed p prios rs.resourceId (kept ++ todo)).owed q)
      ((s.freed p prios rs.resourceId (kept ++ todo)).prio q) := by
  have howner := hsingle.owner_iff hwf.owned hwf.shaped.2
  rw [s.freed_prio, hprios, released_setHolding]
  exact freed_inherits howner hwaits howed (kept ++ todo) q

section Pip

variable {script : Script n} (hscript : script.NonNested) {c : Config n}
  (hreach : (pipScheduler.machine script).Reachable c)

include hscript hreach

theorem reachable_handed_le : c.Handed (· ≤ ·) := by
  refine reachable_invariant pipScheduler_lawful (Config.Handed (· ≤ ·)) ?_ ?_ hreach
  · intro r _ x hx
    cases hx
  · intro c next hstate hwf heffect hhanded
    refine heffect.handed hwf ?_ ?_ hhanded
    · intro w x r hw hrequest hx hle
      have hnotreleasing : ∀ kept todo, c.pc ≠ .release w kept todo := by
        intro kept todo hpc
        have hshaped := hwf.shaped
        rw [hpc] at hshaped hw
        have hready : w ∈ c.sim.readyqueue := by simpa [Pc.acquiring] using hw
        exact hwf.queued.not_linked hshaped.1.2 (.inr (.inl hready))
      have hrequester : ∀ r, (c.sim.resources r).owner ≠ some w :=
        requester_owns_nothing pipScheduler_lawful hscript hstate hnotreleasing hrequest
      have hwaiter : ∀ r, (c.sim.resources r).owner ≠ some x :=
        waiter_owns_nothing pipScheduler_lawful hscript hstate hx
      rw [heffect.prio_of_idle hwf hrequester, heffect.prio_of_idle hwf hwaiter]
      exact hle
    · intro s first rest x hx
      exact (le_scanMax s.prio first (first :: rest)).2 x hx

/-- The process that `prio_schedule` chooses is at least as important as every waiter. -/
theorem chosen_top (hpc : c.pc = .iterate)
    (howed : ∀ q, IsGreatest (c.sim.owed q) (c.sim.prio q)) {p : Fin n} {queue : List (Fin n)}
    (hchosen : Chosen pipPolicy (__forkOnSchedule c.sim) (some p) queue) (r : Fin NR_RESOURCES)
    {x : Fin n} (hx : x ∈ (c.sim.resources r).waitqueue) : c.sim.prio x ≤ c.sim.prio p := by
  have hprocs := forkOnSchedule_procs (reachable_wellFormed pipScheduler_lawful hreach).queued
  have hbest : ∀ q ∈ (__forkOnSchedule c.sim).candidates, c.sim.prio q ≤ c.sim.prio p := by
    intro q hq
    have hprefers : ((__forkOnSchedule c.sim).procs q).prio ≤
        ((__forkOnSchedule c.sim).procs p).prio := hchosen.prefers p rfl q hq
    rwa [hprocs] at hprefers
  cases howner : (c.sim.resources r).owner with
  | some q =>
      have hcandidate := owner_candidate pipScheduler_lawful hscript hreach hpc howner
      have hinherits : c.sim.prio x ≤ c.sim.prio q :=
        (howed q).2 (.inr ⟨r, howner, x, hx, rfl⟩)
      exact hinherits.trans (hbest q hcandidate)
  | none =>
      obtain ⟨w, hw, -, hle⟩ := reachable_handed_le hscript hreach r howner x hx
      have hready : w ∈ c.sim.readyqueue := by simpa [hpc, Pc.acquiring] using hw
      have hcandidate : w ∈ (__forkOnSchedule c.sim).candidates :=
        mem_candidates.mpr (.inl (List.mem_append_left _ hready))
      exact hle.trans (hbest w hcandidate)

theorem Effect.inherits {next : Config n} (hwf : c.WellFormed)
    (heffect : Effect pipPolicy c next) (hinherits : c.Inherits) : next.Inherits := by
  have hwaiters : ∀ r, ∀ x ∈ (c.sim.resources r).waitqueue, ∀ r',
      (c.sim.resources r').owner ≠ some x := fun r x hx =>
    waiter_owns_nothing pipScheduler_lawful hscript hreach hx
  have hsingle := reachable_single pipScheduler_lawful hscript hreach
  obtain ⟨howed, htop⟩ := hinherits
  cases heffect with
  | finish hturn => exact ⟨hturn.inherits hwf.queued howed, trivial⟩
  | idle hturn =>
      have hafter := hturn.inherits hwf.queued howed
      exact ⟨hafter, trivial⟩
  | @dispatch s after p hturn =>
      refine ⟨hturn.inherits hwf.queued howed, fun r x hx => ?_⟩
      have hresources : after.resources = s.resources := hturn.resources
      have hprio : ∀ q, after.prio q = s.prio q := fun q => by
        rw [Sim.prio, hturn.procs hwf.queued]
        rfl
      rw [hresources] at hx
      rw [hprio, hprio]
      exact chosen_top hscript hreach rfl howed hturn.chosen r hx
  | refuse => exact ⟨howed, trivial⟩
  | skip => exact ⟨howed, htop⟩
  | @grant s p skipped todo rs hage hfree =>
      have hidle : ∀ r, (s.resources r).owner ≠ some p :=
        requester_owns_nothing pipScheduler_lawful hscript hreach (by simp)
          (hwf.request_reached hage)
      refine ⟨fun q => ?_, fun r x hx => ?_⟩
      · show IsGreatest _ ((s.granted p _ rs _).prio q)
        rw [s.granted_prio]
        exact granted_inherits hfree hidle htop howed _ q
      · rw [s.granted_waitqueue] at hx
        rw [s.granted_prio]
        exact htop r x hx
  | @block s p owner skipped todo rs hage howned =>
      have hidle : ∀ r, (s.resources r).owner ≠ some p :=
        requester_owns_nothing pipScheduler_lawful hscript hreach (by simp)
          (hwf.request_reached hage)
      refine ⟨fun q => ?_, trivial⟩
      show IsGreatest _ ((s.blocked p _ _).prio q)
      rw [s.blocked_prio]
      exact blocked_inherits howned hidle hwaiters howed q
  | @grow s p => exact ⟨grow_inherits howed p, trivial⟩
  | @keep s p => exact ⟨setHolding_inherits howed p _, trivial⟩
  | @drop s p kept todo rs prios _ hprios howner =>
      have hwaits : ∀ r, p ∉ (s.resources r).waitqueue := fun r hwait =>
        hwaiters r p hwait _ howner
      exact ⟨release_inherits hwf (hsingle p) hwaits hprios howed, trivial⟩
  | @wake s p _ waiter _ kept todo rs prios _ hprios howner =>
      have hwaits : ∀ r, p ∉ (s.resources r).waitqueue := fun r hwait =>
        hwaiters r p hwait _ howner
      refine ⟨fun q => ?_, trivial⟩
      -- the released resource has no owner whose debt the woken process could change
      rw [moveToReady_owed (by simp [s.freed_owner]), Sim.moveToReady_prio]
      exact release_inherits hwf (hsingle p) hwaits hprios howed q
  | tick => exact ⟨howed, trivial⟩
  | finished => exact ⟨howed, htop⟩
  | failed => exact ⟨howed, htop⟩

theorem reachable_inherits : c.Inherits := by
  refine reachable_invariant pipScheduler_lawful Config.Inherits ?_ ?_ hreach
  · refine ⟨fun q => ?_, trivial⟩
    have hidle : ∀ r, (script.start.sim.resources r).owner ≠ some q := by
      simp [Script.start, Script.load]
    rw [owed_of_idle hidle]
    exact isGreatest_singleton
  · intro c next hstate hwf heffect hinherits
    exact heffect.inherits hscript hstate hwf hinherits

/-- **No priority inversion.** Without nested uses every process runs, at the head of the
main loop, at the greatest of its priority and those of the waiters for the resource it
owns, and the process that `prio_schedule` returns is at least as important as every
waiter. -/
theorem no_priority_inversion (hpc : c.pc = .iterate) :
    (∀ p, IsGreatest (c.sim.owed p) (c.sim.prio p)) ∧
    (∀ p after, prioSchedule (__forkOnSchedule c.sim) = .ok (some p, after) →
      ∀ r, ∀ x ∈ (c.sim.resources r).waitqueue, c.sim.prio x ≤ c.sim.prio p) := by
  have howed := (reachable_inherits hscript hreach).owed
  refine ⟨howed, fun p after hschedule r x hx => ?_⟩
  have hqueued := (reachable_wellFormed pipScheduler_lawful hreach).queued
  obtain ⟨next, queue, heq, hchosen⟩ :=
    pipScheduler_lawful.schedule (__forkOnSchedule c.sim) fun q hq =>
      ((forkOnSchedule_queued hqueued).ready q hq).2
  obtain rfl : next = some p := by
    have hsame := Except.ok.inj (heq.symm.trans hschedule)
    exact congrArg Prod.fst hsame
  exact chosen_top hscript hreach hpc howed hchosen r hx

end Pip

/-- A process that uses two resources in turn, and a more important one that requests
the first. -/
def exchanged : Script 2 :=
  ![⟨1, 0, 4, 1, [⟨0, 0, 2⟩, ⟨1, 2, 2⟩]⟩,
    ⟨2, 1, 3, 10, [⟨0, 0, 1⟩]⟩]

theorem exchanged_nonNested : exchanged.NonNested where
  lifespan := by decide
  duration := by decide
  ends := by decide
  disjoint := by
    refine Fin.forall_fin_two.mpr ⟨?_, ?_⟩
    · refine List.pairwise_pair.mpr fun age => ?_
      simp only [Acquire.Spans]
      omega
    · exact List.pairwise_singleton _ _

/-- The first process of `exchanged` inherits from the second when that has blocked. -/
theorem no_priority_inversion_exchanged :
    let s := (pipScheduler.next^[8] exchanged.start).sim
    IsGreatest (s.owed 0) 10 := by
  have hreach : (pipScheduler.machine exchanged).Reachable
      (pipScheduler.next^[8] exchanged.start) := Machine.reachable_iterate _ _ 8
  have hgreatest := (no_priority_inversion exchanged_nonNested hreach (by decide +kernel)).1 0
  have hprio : (pipScheduler.next^[8] exchanged.start).sim.prio 0 = 10 := by decide +kernel
  exact hprio ▸ hgreatest

end OperatingSystem.Sched
