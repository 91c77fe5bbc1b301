import OperatingSystem.Timetable
import OperatingSystem.SchedRounds
import OperatingSystem.SchedInversion

/-!
# The reference schedule of FIFO

`fifo_schedule` lets the running process run to its end. So a resource is owned by the
running process only, nobody waits, and the processes are served one after the other in
the order of their starts, whatever they acquire.
-/

namespace OperatingSystem.Sched

variable {n : Nat}

/-- The uses that a process makes of one resource do not overlap. -/
structure Script.Disjoint (script : Script n) : Prop extends script.Regular where
  disjoint : ∀ p, (script p).acquires.Pairwise fun first second =>
    first.resourceId = second.resourceId → ∀ age, ¬ (first.Spans age ∧ second.Spans age)

/-! ## Nobody waits -/

/-- Only the running process owns resources. -/
structure Config.Unshared (c : Config n) : Prop where
  waitqueue : ∀ r, (c.sim.resources r).waitqueue = []
  owner : ∀ r q, (c.sim.resources r).owner = some q → c.sim.current = some q

theorem fifoSchedule_running {s : Sim n} {p : Fin n} (hrunning : s.running = some p)
    (hage : (s.procs p).age < (s.procs p).lifespan) : fifoSchedule s = .ok (some p, s) := by
  simp [fifoSchedule, hrunning, hage]

theorem fifoSchedule_pick {s : Sim n} (hrunning : ∀ p, s.running = some p →
    ¬ (s.procs p).age < (s.procs p).lifespan) : fifoSchedule s = .ok (pickNext s) := by
  unfold fifoSchedule
  cases hcurrent : s.running with
  | none => rfl
  | some p => simp [hrunning p hcurrent]

section Step

variable {script : Script n} {s : Sim n} (hwf : (⟨.iterate, s⟩ : Config n).WellFormed)
  (hunshared : (⟨.iterate, s⟩ : Config n).Unshared)

include hwf hunshared

theorem Config.Unshared.running_iff (p : Fin n) :
    (__forkOnSchedule s).running = some p ↔ s.current = some p := by
  rw [running_eq_some, forkOnSchedule_procs hwf.queued]
  constructor
  · rintro ⟨hcurrent, -⟩
    exact hcurrent
  · intro hcurrent
    refine ⟨hcurrent, ?_⟩
    rcases hwf.shaped p hcurrent with hrun | ⟨r, hwait⟩
    · rw [hrun]
      simp
    · simp [show (s.resources r).waitqueue = [] from hunshared.waitqueue r] at hwait

/-- The process that is chosen next owns what is owned. -/
theorem Config.Unshared.next_owner (hregular : script.Regular)
    (htimed : (⟨.iterate, s⟩ : Config n).Timed script)
    (hprompt : (⟨.iterate, s⟩ : Config n).Prompt) {next : Option (Fin n)} {after : Sim n}
    (hschedule : fifoSchedule (__forkOnSchedule s) = .ok (next, after)) {r : Fin NR_RESOURCES}
    {q : Fin n} (howner : (s.resources r).owner = some q) : next = some q := by
  have hcurrent : s.current = some q := hunshared.owner r q howner
  have hprocs := forkOnSchedule_procs hwf.queued
  have hage : (s.procs q).age < (s.procs q).lifespan := by
    refine lt_of_le_of_ne (hprompt.young q hcurrent) fun hage => ?_
    have hnone := (hprompt.retired hregular htimed hage).2.1
    have hheld := (hwf.owned.owner r q).mp howner
    simp [Process.held, hnone] at hheld
  have hrun := fifoSchedule_running ((hunshared.running_iff hwf q).mpr hcurrent) (hprocs ▸ hage)
  rw [hschedule] at hrun
  exact congrArg Prod.fst (Except.ok.inj hrun)

end Step

/-- A process does not request what it owns. -/
theorem Config.unowned_request {script : Script n} (hscript : script.Disjoint) {s : Sim n}
    {p : Fin n} {skipped todo : List ResourceSchedule} {rs : ResourceSchedule}
    (hwf : (⟨.acquire p skipped (rs :: todo), s⟩ : Config n).WellFormed)
    (htimed : (⟨.acquire p skipped (rs :: todo), s⟩ : Config n).Timed script)
    (hprompt : (⟨.acquire p skipped (rs :: todo), s⟩ : Config n).Prompt)
    (hdistinct : (⟨.acquire p skipped (rs :: todo), s⟩ : Config n).Distinct)
    (hage : rs.atAge = (s.procs p).age) : (s.resources rs.resourceId).owner ≠ some p := by
  intro howner
  obtain ⟨entry, hpending, hentry, hresource, hspans⟩ :=
    (htimed.follows p).request_spans (hscript.duration p) (hwf.request_reached hage)
  obtain ⟨held, hheld, hsame⟩ := List.mem_map.mp ((hwf.owned.owner _ p).mp howner)
  obtain ⟨line, hline, hlined, hspans'⟩ :=
    (htimed.holding p).spans (hprompt.durations p) hheld
  have hresources : entry.resourceId = line.resourceId := by rw [hresource, hlined, hsame]
  refine Process.nodes_ne (hdistinct p) hpending hheld ?_
  refine pairwise_index (hscript.disjoint p) hentry hline ?_ ?_
  · exact fun hapart => hapart hresources _ ⟨hspans, hspans'⟩
  · exact fun hapart => hapart hresources.symm _ ⟨hspans', hspans⟩

theorem Effect.unshared {script : Script n} (hscript : script.Disjoint) {c next : Config n}
    (hwf : c.WellFormed) (htimed : c.Timed script) (hprompt : c.Prompt) (hdistinct : c.Distinct)
    (heffect : Effect fifoPolicy c next) (hschedule : c.pc = .iterate →
      ∃ after, fifoSchedule (__forkOnSchedule c.sim) = .ok (next.sim.current, after))
    (hunshared : c.Unshared) : next.Unshared := by
  obtain ⟨hwaitqueue, howner⟩ := hunshared
  cases heffect with
  | @finish s after hturn | @idle s after hturn | @dispatch s after _ hturn =>
      obtain ⟨picked, hschedule⟩ := hschedule rfl
      have hresources : after.resources = s.resources := hturn.resources
      constructor
      · intro r
        show (after.resources r).waitqueue = []
        rw [hresources]
        exact hwaitqueue r
      · intro r q hq
        replace hq : (after.resources r).owner = some q := hq
        rw [hresources] at hq
        exact Config.Unshared.next_owner hwf ⟨hwaitqueue, howner⟩ hscript.toRegular htimed hprompt
          hschedule hq
  | refuse | skip | tick | finished | failed => exact ⟨hwaitqueue, howner⟩
  | @grant s p skipped todo rs =>
      constructor
      · intro r
        rw [s.granted_waitqueue]
        exact hwaitqueue r
      · intro r q hq
        rw [s.granted_owner] at hq
        by_cases hr : r = rs.resourceId
        · rw [if_pos hr] at hq
          exact hwf.shaped.1.1.trans hq
        · rw [if_neg hr] at hq
          exact howner r q hq
  | @block s p q skipped todo rs hage howned =>
      have hq : p = q := Option.some.inj (hwf.shaped.1.1.symm.trans (howner _ q howned))
      subst hq
      exact absurd howned (Config.unowned_request hscript hwf htimed hprompt hdistinct hage)
  | @grow s p => exact ⟨hwaitqueue, howner⟩
  | @keep s p => exact ⟨hwaitqueue, howner⟩
  | @drop s p kept todo rs =>
      constructor
      · intro r
        rw [s.freed_waitqueue]
        exact hwaitqueue r
      · intro r q hq
        rw [s.freed_owner] at hq
        by_cases hr : r = rs.resourceId
        · simp [hr] at hq
        · rw [if_neg hr] at hq
          exact howner r q hq
  | @wake s p first waiter rest kept todo rs prios _ _ _ hqueue =>
      have hempty : (s.resources rs.resourceId).waitqueue = [] := hwaitqueue _
      rw [hqueue] at hempty
      cases hempty

theorem reachable_unshared {script : Script n} (hscript : script.Disjoint) {c : Config n}
    (hreach : (fifoScheduler.machine script).Reachable c) : c.Unshared := by
  have hlaw := fifoScheduler_lawful (n := n)
  apply hreach.invariant Config.Unshared
  · exact ⟨fun _ => rfl, by simp [Scheduler.machine, Machine.ofFun, Script.start, Script.load]⟩
  rintro state - next hstate hunshared rfl
  have hwf := reachable_wellFormed hlaw hstate
  refine (step_effect hlaw hwf).unshared hscript hwf (reachable_timed hlaw hstate)
    (reachable_prompt hlaw hscript.toRegular hstate) (reachable_distinct hlaw hstate) ?_ hunshared
  intro hpc
  obtain ⟨pc, s⟩ := state
  obtain rfl : pc = .iterate := hpc
  exact ⟨_, iteration_schedule hlaw hwf.queued rfl
    (reachable_not_failed hlaw hscript.toRegular (reachable_next hstate))⟩

theorem reachable_smooth {script : Script n} (hscript : script.Disjoint) {c : Config n}
    (hreach : (fifoScheduler.machine script).Reachable c) : c.Smooth :=
  ⟨(reachable_unshared hscript hreach).waitqueue,
    reachable_not_failed fifoScheduler_lawful hscript.toRegular hreach⟩

/-! ## The reference -/

section Reference

variable (script : Script n)

/-- The processes by start tick, ties in the order of the script. -/
def Script.order : List (Fin n) := byStart (fun p => (script p).start) (List.finRange n)

/-- When the processes of a queue have run, one after the other. -/
def Script.servedAt (served : List (Fin n)) : Nat :=
  doneAt (fun p => (script p).start) (fun p => (script p).lifespan) 0 served

/-- The schedule that FIFO should produce. -/
def Script.reference : List (Slot (Fin n)) :=
  timetable (fun p => (script p).start) (fun p => (script p).lifespan) 0 script.order

theorem mem_order (p : Fin n) : p ∈ script.order :=
  (byStart_perm _ _).mem_iff.mpr (List.mem_finRange p)

theorem order_nodup : script.order.Nodup :=
  (byStart_perm _ _).nodup_iff.mpr (List.nodup_finRange n)

variable {script} {served future : List (Fin n)} {tick : Nat}

/-- The slot of the process that is served at a tick is the active one. -/
theorem reference_active {p : Fin n} (horder : script.order = served ++ p :: future)
    (hfirst : max (script p).start (script.servedAt served) ≤ tick)
    (hfinish : tick < script.servedAt (served ++ [p])) {slot : Slot (Fin n)}
    (hslot : slot ∈ script.reference) : slot.Active tick ↔ slot.job = p := by
  have hmem := timetable_slot (fun p => (script p).start) (fun p => (script p).lifespan) 0 served p
    future
  rw [← horder] at hmem
  constructor
  · intro hactive
    exact congrArg Slot.job (active_unique hslot hmem hactive ⟨hfirst, hfinish⟩)
  · intro hjob
    have hnodup : (script.reference.map Slot.job).Nodup := by
      rw [Script.reference, timetable_jobs]
      exact order_nodup script
    rw [List.inj_on_of_nodup_map hnodup hslot hmem hjob]
    exact ⟨hfirst, hfinish⟩

/-- When everything that has started is done, nothing is active. -/
theorem reference_inactive (horder : script.order = served ++ future)
    (hserved : script.servedAt served ≤ tick) (hfuture : ∀ p ∈ future, tick < (script p).start)
    {slot : Slot (Fin n)} (hslot : slot ∈ script.reference) : ¬ slot.Active tick := by
  rintro ⟨hfirst, hfinish⟩
  rw [Script.reference, horder, timetable_append] at hslot
  rcases List.mem_append.mp hslot with hslot | hslot
  · have hbounds := (timetable_bounds hslot).2
    exact absurd (hfinish.trans_le hbounds) (not_lt.mpr hserved)
  · have hbounds := (timetable_bounds hslot).1
    have hjob : slot.job ∈ future := by
      rw [← timetable_jobs (fun p => (script p).start) (fun p => (script p).lifespan) _ future]
      exact List.mem_map_of_mem hslot
    have hlate := hfuture _ hjob
    omega

end Reference

/-! ## The queues follow the reference -/

/-- Where a head state is in the reference. -/
structure Sim.Serving (script : Script n) (served future : List (Fin n)) (s : Sim n) : Prop where
  order : script.order = served ++ future
  forkqueue : s.forkqueue = (List.finRange n).filter fun p => s.ticks ≤ (script p).start
  readyqueue : s.readyqueue = future.filter fun p => (script p).start < s.ticks
  startsAt : ∀ p, (s.procs p).startsAt = (script p).start
  started : ∀ p ∈ served, (script p).start < s.ticks
  fresh : ∀ p ∈ future, (s.procs p).age = 0
  due : ∀ p ∈ future, s.ticks ≤ max (script p).start (script.servedAt served)
  idle : s.current = none → script.servedAt served ≤ s.ticks ∧ (s.ticks = 0 ∨ future ≠ [])
  running : ∀ p, s.current = some p → ∃ before, served = before ++ [p] ∧
    s.ticks + (script p).lifespan = script.servedAt served + (s.procs p).age

/-- What `fifo_schedule` chooses: the current process, or the first of the ready queue. -/
theorem fifo_round {script : Script n} {s : Sim n} (hhead : s.Head script)
    {next : Option (Fin n)} {after : Sim n} (hround : Round fifoScheduler fifoPolicy s next after) :
    (∃ p, s.current = some p ∧ (s.procs p).age < (s.procs p).lifespan ∧ next = some p ∧
      after.readyqueue = (__forkOnSchedule s).readyqueue) ∨
    ((∀ p, s.current = some p → (s.procs p).age = (s.procs p).lifespan) ∧
      (__forkOnSchedule s).readyqueue = next.toList ++ after.readyqueue ∧
      (next = none → after.readyqueue = [])) := by
  have hprocs := forkOnSchedule_procs hhead.queued
  have hschedule : fifoSchedule (__forkOnSchedule s) = _ := hround.schedule
  by_cases hunfinished : ∃ p, s.current = some p ∧ (s.procs p).age < (s.procs p).lifespan
  · obtain ⟨p, hcurrent, hage⟩ := hunfinished
    have hrunning : (__forkOnSchedule s).running = some p := by
      refine running_eq_some.mpr ⟨hcurrent, ?_⟩
      rw [hprocs, hhead.current_running hcurrent]
      simp
    rw [fifoSchedule_running hrunning (hprocs ▸ hage)] at hschedule
    have hsame := Except.ok.inj hschedule
    exact .inl ⟨p, hcurrent, hage, (congrArg Prod.fst hsame).symm,
      (congrArg (fun chosen => chosen.2.readyqueue) hsame).symm⟩
  · have hfinished : ∀ p, s.current = some p → (s.procs p).age = (s.procs p).lifespan := by
      intro p hcurrent
      by_contra hage
      exact hunfinished ⟨p, hcurrent, lt_of_le_of_ne (hhead.bounded p hcurrent) hage⟩
    refine .inr ⟨hfinished, ?_⟩
    rw [fifoSchedule_pick] at hschedule
    · have hsame := Except.ok.inj hschedule
      have hnext := congrArg Prod.fst hsame
      have hready := congrArg (fun chosen => chosen.2.readyqueue) hsame
      unfold pickNext at hnext hready
      cases hqueue : (__forkOnSchedule s).readyqueue with
      | nil =>
          simp only [hqueue] at hnext hready
          simp [← hnext, ← hready]
      | cons first rest =>
          simp only [hqueue] at hnext hready
          simp [← hnext, ← hready]
    · intro p hrunning
      rw [hprocs]
      exact (hfinished p (running_eq_some.mp hrunning).1).not_lt

/-- The processes that have started by a tick are those that have before the next one. -/
theorem started_next {script : Script n} {s now : Sim n} (queue : List (Fin n))
    (hticks : now.ticks = s.ticks + 1) :
    queue.filter (fun p => (script p).start < now.ticks) =
      queue.filter fun p => (script p).start ≤ s.ticks := by
  simp only [hticks, Nat.lt_succ_iff]

section Serving

variable {script : Script n} {served future : List (Fin n)} {s now after : Sim n}
  {next : Option (Fin n)} (hserving : s.Serving script served future)

include hserving

theorem Sim.Serving.sorted : future.Pairwise fun p q => (script p).start ≤ (script q).start := by
  have hsorted := byStart_sorted (fun p => (script p).start) (List.finRange n)
  rw [show byStart _ _ = served ++ future from hserving.order] at hsorted
  exact (List.pairwise_append.mp hsorted).2.1

theorem Sim.Serving.forks : (__forkOnSchedule s).forkqueue =
    (List.finRange n).filter fun p => s.ticks + 1 ≤ (script p).start := by
  show s.forkqueue.filter _ = _
  rw [hserving.forkqueue, List.filter_filter]
  refine List.filter_congr fun p _ => ?_
  rw [hserving.startsAt]
  simp only [decide_eq_decide, ← Bool.decide_and]
  omega

/-- The processes that are forked come after those that are ready. -/
theorem Sim.Serving.ready : (__forkOnSchedule s).readyqueue =
    future.filter fun p => (script p).start ≤ s.ticks := by
  have hdue : s.due = (List.finRange n).filter fun p => (script p).start = s.ticks := by
    rw [Sim.due, hserving.forkqueue, List.filter_filter]
    refine List.filter_congr fun p _ => ?_
    rw [hserving.startsAt]
    simp only [decide_eq_decide, ← Bool.decide_and]
    omega
  have hserved : served.filter (fun p => (script p).start = s.ticks) = [] := by
    refine List.filter_eq_nil_iff.mpr fun p hp => ?_
    simpa using (hserving.started p hp).ne
  have hforked : s.due = future.filter fun p => (script p).start = s.ticks := by
    rw [hdue, ← byStart_filter, show byStart _ _ = served ++ future from hserving.order,
      List.filter_append, hserved, List.nil_append]
  rw [filter_started hserving.sorted, ← hserving.readyqueue, ← hforked]
  rfl

/-- Whoever was served has been served for its lifespan, unless it goes on. -/
theorem Sim.Serving.servedAt_le (hhead : s.Head script)
    (hfinished : ∀ p, s.current = some p → (s.procs p).age = (s.procs p).lifespan) :
    script.servedAt served ≤ s.ticks := by
  rcases Option.eq_none_or_eq_some s.current with hnone | ⟨p, hcurrent⟩
  · exact (hserving.idle hnone).1
  · obtain ⟨before, -, hage⟩ := hserving.running p hcurrent
    rw [hfinished p hcurrent, hhead.lifespan] at hage
    omega

theorem Sim.Serving.idle_step (hhead : s.Head script)
    (hround : Round fifoScheduler fifoPolicy s none after) (hadvanced : s.Advanced now none)
    (hready : now.readyqueue = after.readyqueue) (hforks : now.forkqueue ≠ []) :
    now.Serving script served future ∧ ∀ slot ∈ script.reference, ¬ slot.Active s.ticks := by
  obtain ⟨p, -, -, hnext, -⟩ | ⟨hfinished, hqueue, hempty⟩ := fifo_round hhead hround
  · cases hnext
  have hserved := hserving.servedAt_le hhead hfinished
  rw [hserving.ready, hempty rfl] at hqueue
  have hlate : ∀ p ∈ future, s.ticks < (script p).start := fun p hp => by
    have hout := List.filter_eq_nil_iff.mp hqueue p hp
    simp only [decide_eq_true_eq] at hout
    omega
  have hfork : now.forkqueue =
      (List.finRange n).filter fun p => now.ticks ≤ (script p).start := by
    rw [hadvanced.forkqueue, hserving.forks, hadvanced.ticks]
  refine ⟨?_, fun slot hslot => reference_inactive hserving.order hserved hlate hslot⟩
  constructor
  case order => exact hserving.order
  case forkqueue => exact hfork
  case readyqueue =>
    rw [hready, hempty rfl, started_next future hadvanced.ticks]
    exact hqueue.symm
  case startsAt => exact fun p => (hadvanced.startsAt p).trans (hserving.startsAt p)
  case started =>
    intro p hp
    have hstarted := hserving.started p hp
    rw [hadvanced.ticks]
    omega
  case fresh =>
    intro p hp
    rw [hadvanced.age, hserving.fresh p hp]
    rfl
  case due =>
    intro p hp
    have hstart := hlate p hp
    rw [hadvanced.ticks]
    omega
  case idle =>
    intro _
    rw [hadvanced.ticks]
    refine ⟨by omega, .inr ?_⟩
    obtain ⟨p, hp⟩ := List.exists_mem_of_ne_nil _ hforks
    rw [hfork, hadvanced.ticks] at hp
    have hstart : s.ticks + 1 ≤ (script p).start := by simpa using hp
    have hplace := mem_order script p
    rw [hserving.order] at hplace
    rcases List.mem_append.mp hplace with hmem | hmem
    · have hstarted := hserving.started p hmem
      omega
    · exact List.ne_nil_of_mem hmem
  case running =>
    intro p hcurrent
    rw [hadvanced.current] at hcurrent
    cases hcurrent

/-- The current process goes on. -/
theorem Sim.Serving.run_current (hhead : s.Head script) {p : Fin n} (hcurrent : s.current = some p)
    (hage : (s.procs p).age < (s.procs p).lifespan) (hadvanced : s.Advanced now (some p))
    (hready : now.readyqueue = (__forkOnSchedule s).readyqueue) :
    now.Serving script served future ∧
      ∀ slot ∈ script.reference, (slot.Active s.ticks ↔ slot.job = p) := by
  obtain ⟨before, hbefore, hclock⟩ := hserving.running p hcurrent
  rw [hhead.lifespan] at hage
  have horder : script.order = before ++ p :: future := by simp [hserving.order, hbefore]
  have hserved : script.servedAt served =
      max (script p).start (script.servedAt before) + (script p).lifespan := by
    rw [hbefore]
    exact doneAt_snoc ..
  refine ⟨?_, fun slot hslot => reference_active horder ?_ ?_ hslot⟩
  rotate_left
  · omega
  · rw [← hbefore]
    omega
  constructor
  case order => exact hserving.order
  case forkqueue => rw [hadvanced.forkqueue, hserving.forks, hadvanced.ticks]
  case readyqueue => rw [hready, hserving.ready, started_next future hadvanced.ticks]
  case startsAt => exact fun q => (hadvanced.startsAt q).trans (hserving.startsAt q)
  case started =>
    intro q hq
    have hstarted := hserving.started q hq
    rw [hadvanced.ticks]
    omega
  case fresh =>
    intro q hq
    have hne : p ≠ q := by
      rintro rfl
      have hnodup := order_nodup script
      rw [horder] at hnodup
      exact (List.nodup_cons.mp (List.nodup_append.mp hnodup).2.1).1 hq
    rw [hadvanced.age, hserving.fresh q hq, if_neg (by simpa using hne)]
  case due =>
    intro q _
    rw [hadvanced.ticks]
    omega
  case idle =>
    intro hnone
    rw [hadvanced.current] at hnone
    cases hnone
  case running =>
    intro q hq
    rw [hadvanced.current] at hq
    obtain rfl := Option.some.inj hq
    refine ⟨before, hbefore, ?_⟩
    rw [hadvanced.age, hadvanced.ticks, if_pos rfl]
    omega

/-- The first process of the queue is served next. -/
theorem Sim.Serving.run_first (hhead : s.Head script) (hlives : ∀ p, 1 ≤ (script p).lifespan)
    (hfinished : ∀ p, s.current = some p → (s.procs p).age = (s.procs p).lifespan) {p : Fin n}
    (hqueue : (__forkOnSchedule s).readyqueue = p :: now.readyqueue)
    (hadvanced : s.Advanced now (some p)) :
    ∃ rest, future = p :: rest ∧ now.Serving script (served ++ [p]) rest ∧
      ∀ slot ∈ script.reference, (slot.Active s.ticks ↔ slot.job = p) := by
  have hdone := hserving.servedAt_le hhead hfinished
  have hlife := hlives p
  rw [hserving.ready] at hqueue
  obtain ⟨rest, rfl⟩ : ∃ rest, future = p :: rest := by
    cases hfuture : future with
    | nil => simp [hfuture] at hqueue
    | cons first rest =>
        have hsorted := hserving.sorted
        rw [hfuture] at hqueue hsorted
        by_cases hstart : (script first).start ≤ s.ticks
        · simp only [List.filter_cons, hstart, decide_true, if_true, List.cons.injEq] at hqueue
          exact ⟨rest, by rw [hqueue.1]⟩
        · have hempty : (first :: rest).filter (fun q => (script q).start ≤ s.ticks) = [] := by
            refine List.filter_eq_nil_iff.mpr fun q hq => ?_
            simp only [decide_eq_true_eq]
            rcases List.mem_cons.mp hq with rfl | hq
            · exact hstart
            · have hle := (List.pairwise_cons.mp hsorted).1 q hq
              omega
          rw [hempty] at hqueue
          cases hqueue
  have hstart : (script p).start ≤ s.ticks := by
    have hmem : p ∈ (p :: rest).filter fun q => (script q).start ≤ s.ticks := by
      rw [hqueue]
      exact List.mem_cons_self
    simpa using (List.mem_filter.mp hmem).2
  have hrest : rest.filter (fun q => (script q).start ≤ s.ticks) = now.readyqueue := by
    simpa [hstart] using hqueue
  have hdue := hserving.due p List.mem_cons_self
  have hserved : script.servedAt (served ++ [p]) =
      max (script p).start (script.servedAt served) + (script p).lifespan := doneAt_snoc ..
  have horder : script.order = (served ++ [p]) ++ rest := by simp [hserving.order]
  refine ⟨rest, rfl, ?_, fun slot hslot => reference_active hserving.order ?_ ?_ hslot⟩
  rotate_left
  · omega
  · omega
  constructor
  case order => exact horder
  case forkqueue => rw [hadvanced.forkqueue, hserving.forks, hadvanced.ticks]
  case readyqueue => rw [← hrest, started_next rest hadvanced.ticks]
  case startsAt => exact fun q => (hadvanced.startsAt q).trans (hserving.startsAt q)
  case started =>
    intro q hq
    rw [hadvanced.ticks]
    rcases List.mem_append.mp hq with hq | hq
    · have hstarted := hserving.started q hq
      omega
    · rw [List.mem_singleton.mp hq]
      omega
  case fresh =>
    intro q hq
    have hne : p ≠ q := by
      rintro rfl
      have hnodup := order_nodup script
      rw [hserving.order] at hnodup
      exact (List.nodup_cons.mp (List.nodup_append.mp hnodup).2.1).1 hq
    rw [hadvanced.age, hserving.fresh q (List.mem_cons_of_mem _ hq), if_neg (by simpa using hne)]
  case due =>
    intro q _
    rw [hadvanced.ticks]
    omega
  case idle =>
    intro hnone
    rw [hadvanced.current] at hnone
    cases hnone
  case running =>
    intro q hq
    rw [hadvanced.current] at hq
    obtain rfl := Option.some.inj hq
    refine ⟨served, rfl, ?_⟩
    rw [hadvanced.age, hadvanced.ticks, if_pos rfl, hserving.fresh p List.mem_cons_self]
    omega

/-- The simulation ends when the last process is done. -/
theorem Sim.Serving.finish (hhead : s.Head script)
    (hround : Round fifoScheduler fifoPolicy s none after) (hforks : after.forkqueue = []) :
    s.ticks = script.servedAt script.order := by
  obtain ⟨p, -, -, hnext, -⟩ | ⟨hfinished, hqueue, hempty⟩ := fifo_round hhead hround
  · cases hnext
  rw [hserving.ready, hempty rfl] at hqueue
  rw [hround.turn.forkqueue, hserving.forks] at hforks
  have hnone : future = [] := by
    refine List.eq_nil_iff_forall_not_mem.mpr fun p hp => ?_
    have hlate := List.filter_eq_nil_iff.mp hqueue p hp
    have hforked := List.filter_eq_nil_iff.mp hforks p (List.mem_finRange p)
    simp only [decide_eq_true_eq] at hlate hforked
    omega
  have horder := hserving.order
  rw [hnone, List.append_nil] at horder
  rw [horder]
  have hdone := hserving.servedAt_le hhead hfinished
  rcases Option.eq_none_or_eq_some s.current with hcurrent | ⟨p, hcurrent⟩
  · have hzero := (hserving.idle hcurrent).2.resolve_right (· hnone)
    omega
  · obtain ⟨before, -, hclock⟩ := hserving.running p hcurrent
    rw [hfinished p hcurrent, hhead.lifespan] at hclock
    omega

end Serving

/-! ## The timeline follows the reference -/

/-- The lines before a tick are those of the reference. -/
structure Served (script : Script n) (tick : Nat) (log : List (Line n)) : Prop where
  ran : ∀ slot ∈ script.reference, ∀ time, (time, .ran slot.job) ∈ log ↔
    time < tick ∧ slot.Active time
  idle : ∀ time, (time, .idle) ∈ log ↔
    time < tick ∧ ∀ slot ∈ script.reference, ¬ slot.Active time
  blocked : ∀ time p rs, (time, .blocked p rs) ∉ log

section Served

variable {script : Script n} {s : Sim n} {log : List (Line n)} {tick : Nat}

theorem Served.opening (hserved : Served script tick log) :
    Served script tick (log ++ s.opening) where
  ran := fun slot hslot time => by
    rw [← hserved.ran slot hslot, List.mem_append, or_iff_left]
    intro hline
    rcases mem_opening hline with ⟨p, heq⟩ | ⟨p, heq⟩ <;> cases heq
  idle := fun time => by
    rw [← hserved.idle, List.mem_append, or_iff_left]
    intro hline
    rcases mem_opening hline with ⟨p, heq⟩ | ⟨p, heq⟩ <;> cases heq
  blocked := fun time p rs hline => by
    rcases List.mem_append.mp hline with hline | hline
    · exact hserved.blocked time p rs hline
    · rcases mem_opening hline with ⟨q, heq⟩ | ⟨q, heq⟩ <;> cases heq

theorem Served.idle_line (hserved : Served script tick log)
    (hinactive : ∀ slot ∈ script.reference, ¬ slot.Active tick) :
    Served script (tick + 1) (log ++ [(tick, .idle)]) where
  ran := fun slot hslot time => by
    have hnot := hinactive slot hslot
    rw [List.mem_append, hserved.ran slot hslot]
    simp only [List.mem_singleton, Prod.mk.injEq, reduceCtorEq, and_false, or_false]
    constructor
    · rintro ⟨hlt, hactive⟩
      exact ⟨by omega, hactive⟩
    · rintro ⟨hlt, hactive⟩
      rcases Nat.lt_succ_iff_lt_or_eq.mp hlt with hlt | rfl
      · exact ⟨hlt, hactive⟩
      · exact absurd hactive hnot
  idle := fun time => by
    rw [List.mem_append, hserved.idle]
    simp only [List.mem_singleton, Prod.mk.injEq, and_true]
    constructor
    · rintro (⟨hlt, hnone⟩ | rfl)
      · exact ⟨by omega, hnone⟩
      · exact ⟨by omega, hinactive⟩
    · rintro ⟨hlt, hnone⟩
      rcases Nat.lt_succ_iff_lt_or_eq.mp hlt with hlt | rfl
      · exact .inl ⟨hlt, hnone⟩
      · exact .inr rfl
  blocked := fun time p rs hline => by
    rcases List.mem_append.mp hline with hline | hline
    · exact hserved.blocked time p rs hline
    · simp at hline

theorem Served.ran_line (hserved : Served script tick log) {p : Fin n}
    (hactive : ∀ slot ∈ script.reference, (slot.Active tick ↔ slot.job = p)) :
    Served script (tick + 1) (log ++ [(tick, .ran p)]) where
  ran := fun slot hslot time => by
    have hslot' := hactive slot hslot
    rw [List.mem_append, hserved.ran slot hslot]
    simp only [List.mem_singleton, Prod.mk.injEq, Event.ran.injEq]
    constructor
    · rintro (⟨hlt, hnow⟩ | ⟨rfl, hjob⟩)
      · exact ⟨by omega, hnow⟩
      · exact ⟨by omega, hslot'.mpr hjob⟩
    · rintro ⟨hlt, hnow⟩
      rcases Nat.lt_succ_iff_lt_or_eq.mp hlt with hlt | rfl
      · exact .inl ⟨hlt, hnow⟩
      · exact .inr ⟨rfl, hslot'.mp hnow⟩
  idle := fun time => by
    rw [List.mem_append, hserved.idle]
    simp only [List.mem_singleton, Prod.mk.injEq, reduceCtorEq, and_false, or_false]
    constructor
    · rintro ⟨hlt, hnone⟩
      exact ⟨by omega, hnone⟩
    · rintro ⟨hlt, hnone⟩
      rcases Nat.lt_succ_iff_lt_or_eq.mp hlt with hlt | rfl
      · exact ⟨hlt, hnone⟩
      · have hplace := mem_order script p
        rw [← timetable_jobs (fun p => (script p).start) (fun p => (script p).lifespan) 0
          script.order] at hplace
        obtain ⟨slot, hslot, hjob⟩ := List.mem_map.mp hplace
        exact absurd ((hactive slot hslot).mpr hjob) (hnone slot hslot)
  blocked := fun time q rs hline => by
    rcases List.mem_append.mp hline with hline | hline
    · exact hserved.blocked time q rs hline
    · simp at hline

end Served

/-! ## Whole runs -/

theorem load_serving (script : Script n) : script.load.Serving script [] script.order where
  order := rfl
  forkqueue := by simp [Script.load]
  readyqueue := by simp [Script.load]
  startsAt := fun _ => rfl
  started := by simp
  fresh := fun _ _ => rfl
  due := fun _ _ => Nat.zero_le _
  idle := fun _ => ⟨le_refl 0, .inl rfl⟩
  running := by simp [Script.load]

theorem nil_served (script : Script n) : Served script 0 [] where
  ran := by simp
  idle := by simp
  blocked := by simp

/-- **FIFO produces the reference schedule.** Whatever resources are acquired, the processes
run one after the other in the order of their starts, every other tick is idle, nobody
blocks, and the simulation ends with the last process. -/
theorem fifo_reference {script : Script n} (hscript : script.Disjoint) : ∃ s log,
    (fifoScheduler.logged script).Reachable (⟨.finished, s⟩, log) ∧
    s.ticks = script.reference.getLast?.elim 0 Slot.finish ∧
    (∀ slot ∈ script.reference, ∀ tick, (tick, .ran slot.job) ∈ log ↔ slot.Active tick) ∧
    (∀ tick, (tick, .idle) ∈ log ↔
      tick < s.ticks ∧ ∀ slot ∈ script.reference, ¬ slot.Active tick) ∧
    (log.filter fun line => line.2.passing).map Prod.fst = List.range s.ticks ∧
    ∀ tick p rs, (tick, .blocked p rs) ∉ log := by
  have hlaw := fifoScheduler_lawful (n := n)
  have hsmooth : ∀ c, (fifoScheduler.machine script).Reachable c → c.Smooth := fun _ =>
    reachable_smooth hscript
  have hheads : ∀ {head : Sim n} {before : List (Line n)},
      (fifoScheduler.logged script).Reachable (⟨.iterate, head⟩, before) → head.Head script :=
    fun hhead => reachable_head hlaw hscript.toRegular hsmooth (reachable_of_logged hhead)
  obtain ⟨s, log, hreach⟩ := smooth_finishes hlaw hsmooth
  obtain ⟨head, before, hhead, ⟨⟨served, future, hserving⟩, hserved⟩, hlines, hround, hforks⟩ :=
    round_invariant hlaw hsmooth
      (fun s log => (∃ served future, s.Serving script served future) ∧ Served script s.ticks log)
      ⟨⟨[], script.order, load_serving script⟩, nil_served script⟩ (by
        rintro s before after hhead ⟨⟨served, future, hserving⟩, hserved⟩ hround hforks
        have hhead := hheads hhead
        have hadvanced := hround.turn.advanced_idle hhead
        obtain ⟨hnow, hinactive⟩ :=
          hserving.idle_step hhead hround hadvanced rfl hforks
        refine ⟨⟨served, future, hnow⟩, ?_⟩
        rw [hadvanced.ticks]
        exact hserved.opening.idle_line hinactive) (by
        rintro s before after p now hhead ⟨⟨served, future, hserving⟩, hserved⟩ hround hsame
        have hhead := hheads hhead
        have hadvanced := hround.turn.advanced_run hhead hsame
        have hready : now.readyqueue = after.readyqueue := hsame.readyqueue
        rw [hadvanced.ticks]
        obtain ⟨q, hcurrent, hage, hnext, hqueue⟩ | ⟨hfinished, hqueue, -⟩ :=
          fifo_round hhead hround
        · obtain rfl := Option.some.inj hnext
          obtain ⟨hnow, hactive⟩ :=
            hserving.run_current hhead hcurrent hage hadvanced (hready.trans hqueue)
          exact ⟨⟨_, _, hnow⟩, hserved.opening.ran_line hactive⟩
        · rw [← hready] at hqueue
          obtain ⟨rest, -, hnow, hactive⟩ :=
            hserving.run_first hhead hscript.lifespan hfinished hqueue hadvanced
          exact ⟨⟨_, _, hnow⟩, hserved.opening.ran_line hactive⟩) hreach
  have hlast := hserving.finish (hheads hhead) hround hforks
  have hticks : s.ticks = head.ticks := hround.turn.ticks
  have hopened := hserved.opening (s := head)
  rw [← hlines, ← hticks] at hopened
  rw [← hticks] at hlast
  refine ⟨s, log, hreach, hlast.trans (timetable_last _ _ 0 script.order).symm, ?_, ?_,
    logged_ticks hlaw hreach, ?_⟩
  · intro slot hslot tick
    rw [← mem_timeline rfl, hopened.ran slot hslot, and_iff_right_of_imp]
    intro hactive
    rw [hlast]
    exact hactive.2.trans_le (timetable_bounds hslot).2
  · intro tick
    rw [← mem_timeline rfl]
    exact hopened.idle tick
  · intro tick p rs hline
    exact hopened.blocked tick p rs ((mem_timeline rfl).mpr hline)

theorem Script.NonNested.disjoint_resources {script : Script n} (hscript : script.NonNested) :
    script.Disjoint where
  toRegular := hscript.toRegular
  disjoint := fun p => by
    refine (hscript.disjoint p).imp ?_
    intro first second hapart _
    exact hapart

/-- The reference schedule of two processes that use two resources. -/
theorem fifo_reference_exchanged : ∃ s log,
    (fifoScheduler.logged exchanged).Reachable (⟨.finished, s⟩, log) ∧
    s.ticks = exchanged.reference.getLast?.elim 0 Slot.finish ∧
    (∀ slot ∈ exchanged.reference, ∀ tick, (tick, .ran slot.job) ∈ log ↔ slot.Active tick) ∧
    (∀ tick, (tick, .idle) ∈ log ↔
      tick < s.ticks ∧ ∀ slot ∈ exchanged.reference, ¬ slot.Active tick) ∧
    (log.filter fun line => line.2.passing).map Prod.fst = List.range s.ticks ∧
    ∀ tick p rs, (tick, .blocked p rs) ∉ log :=
  fifo_reference exchanged_nonNested.disjoint_resources

end OperatingSystem.Sched
