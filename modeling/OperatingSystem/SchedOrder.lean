import OperatingSystem.SchedInversion
import OperatingSystem.SchedTrace
import OperatingSystem.Service

/-!
# Requesting order

`fcfs_release` wakes the first waiter of a resource and leaves the resource free. The
woken process calls `acquire` again when it is dispatched, and until then any other
process may take the resource. As long as nobody does, the callers of a resource are
granted it in the order of their first calls.
-/

namespace OperatingSystem.Sched

variable {n : Nat} {policy : Policy n}

/-! ## Calls and grants -/

/-- A request: a process and the entry for which it calls `acquire`. -/
abbrev Request (n : Nat) := Fin n × ResourceSchedule

/-- The request for `r` that the line reports a call for. -/
def Event.call (r : Fin NR_RESOURCES) : Event n → Option (Request n)
  | .acquired p rs | .blocked p rs => if rs.resourceId = r then some (p, rs) else none
  | _ => none

/-- The request for `r` that the line reports as granted. -/
def Event.grant (r : Fin NR_RESOURCES) : Event n → Option (Request n)
  | .acquired p rs => if rs.resourceId = r then some (p, rs) else none
  | _ => none

def calls (log : List (Line n)) (r : Fin NR_RESOURCES) : List (Request n) :=
  log.filterMap fun line => line.2.call r

def grants (log : List (Line n)) (r : Fin NR_RESOURCES) : List (Request n) :=
  log.filterMap fun line => line.2.grant r

/-- The call of `acquire` for `r` that the next step makes. -/
def Config.calling (c : Config n) (r : Fin NR_RESOURCES) : List (Request n) :=
  match c.pc with
  | .acquire p _ (rs :: _) =>
    if rs.atAge = (c.sim.procs p).age ∧ rs.resourceId = r then [(p, rs)] else []
  | _ => []

/-- The first pending entry whose age has come. -/
def Process.asks (process : Process) : Option ResourceSchedule :=
  process.resourcesToAcquire.find? fun rs => rs.atAge = process.age

section Log

variable {log : List (Line n)} {r : Fin NR_RESOURCES} {c next : Config n} {e : Request n}

theorem resource_of_calls (he : e ∈ calls log r) : e.2.resourceId = r := by
  obtain ⟨⟨tick, event⟩, -, hcall⟩ := List.mem_filterMap.mp he
  cases event with
  | acquired p rs | blocked p rs =>
      simp only [Event.call] at hcall
      split at hcall
      · obtain rfl := Option.some.inj hcall
        assumption
      · cases hcall
  | forked | exited | ran | released | idle => cases hcall

theorem calls_append (log more : List (Line n)) (r : Fin NR_RESOURCES) :
    calls (log ++ more) r = calls log r ++ calls more r := List.filterMap_append

theorem grants_append (log more : List (Line n)) (r : Fin NR_RESOURCES) :
    grants (log ++ more) r = grants log r ++ grants more r := List.filterMap_append

theorem calling_eq (he : e ∈ c.calling r) : c.calling r = [e] := by
  obtain ⟨pc, s⟩ := c
  cases pc with
  | acquire p skipped todo =>
      cases todo with
      | nil => cases he
      | cons rs todo =>
          by_cases hcall : rs.atAge = (s.procs p).age ∧ rs.resourceId = r
          · simp only [Config.calling, if_pos hcall, List.mem_singleton] at he ⊢
            rw [he]
          · simp [Config.calling, hcall] at he
  | iterate | release | finished | failed => cases he

theorem Effect.calls_step (heffect : Effect policy c next) (log : List (Line n))
    (r : Fin NR_RESOURCES) :
    calls (log ++ c.printedLines next) r = calls log r ++ c.calling r := by
  rw [calls_append]
  refine congrArg _ ?_
  rw [calls]
  cases heffect with
  | finish | idle | dispatch | refuse =>
      simp [Config.printedLines, Config.printed, Config.calling, Event.call, Function.comp_def]
  | skip hage => simp [Config.printedLines, Config.printed, Config.calling, hage]
  | @grant s p _ _ rs hage | @block s p _ _ _ rs hage =>
      by_cases hr : rs.resourceId = r
      · simp [Config.printedLines, Config.printed, Config.calling, hage, Event.call, hr]
      · simp [Config.printedLines, Config.printed, Config.calling, hage, Event.call, hr]
  | grow => simp [Config.printedLines, Config.printed, Config.calling, Event.call]
  | keep hduration => simp [Config.printedLines, Config.printed, Config.calling, hduration]
  | drop hduration | wake hduration =>
      simp [Config.printedLines, Config.printed, Config.calling, hduration, Event.call]
  | tick | finished | failed => rfl

/-- The call is granted if the resource is free. -/
theorem Effect.grants_step (heffect : Effect policy c next) (log : List (Line n))
    (r : Fin NR_RESOURCES) :
    grants (log ++ c.printedLines next) r =
      grants log r ++ if (c.sim.resources r).owner = none then c.calling r else [] := by
  rw [grants_append]
  refine congrArg _ ?_
  rw [grants]
  cases heffect with
  | finish | idle | dispatch | refuse =>
      simp [Config.printedLines, Config.printed, Config.calling, Event.grant, Function.comp_def]
  | skip hage => simp [Config.printedLines, Config.printed, Config.calling, hage]
  | @grant s p _ _ rs hage hfree =>
      by_cases hr : rs.resourceId = r
      · subst hr
        simp [Config.printedLines, Config.printed, Config.calling, hage, Event.grant, hfree]
      · simp [Config.printedLines, Config.printed, Config.calling, hage, Event.grant, hr]
  | @block s p _ _ _ rs hage howned =>
      by_cases hr : rs.resourceId = r
      · subst hr
        simp [Config.printedLines, Config.printed, Event.grant, howned]
      · simp [Config.printedLines, Config.printed, Config.calling, hage, Event.grant, hr]
  | grow => simp [Config.printedLines, Config.printed, Config.calling, Event.grant]
  | keep hduration => simp [Config.printedLines, Config.printed, Config.calling, hduration]
  | drop hduration | wake hduration =>
      simp [Config.printedLines, Config.printed, Config.calling, hduration, Event.grant]
  | tick | finished | failed => simp [Config.printedLines, Config.printed, Config.calling]

end Log

/-! ## Taking turns -/

/-- A waiter that was woken and has not called again: its request was refused, is still
pending, and waits no more. -/
def Config.Returning (c : Config n) (log : List (Line n)) (r : Fin NR_RESOURCES)
    (q : Fin n) : Prop :=
  ∃ rs ∈ (c.sim.procs q).resourcesToAcquire, (q, rs) ∈ calls log r ∧
    q ∉ (c.sim.resources r).waitqueue

instance (c : Config n) (log : List (Line n)) (r : Fin NR_RESOURCES) (q : Fin n) :
    Decidable (c.Returning log r q) :=
  inferInstanceAs (Decidable (∃ rs ∈ (c.sim.procs q).resourcesToAcquire,
    (q, rs) ∈ calls log r ∧ q ∉ (c.sim.resources r).waitqueue))

/-- The next step grants no free resource to which another process is returning. -/
def InTurn (state : Config n × List (Line n)) : Prop :=
  ∀ r, ∀ e ∈ state.1.calling r, (state.1.sim.resources r).owner = none →
    ∀ q, q ≠ e.1 → ¬ state.1.Returning state.2 r q

instance (state : Config n × List (Line n)) : Decidable (InTurn state) :=
  inferInstanceAs (Decidable (∀ r, ∀ e ∈ state.1.calling r,
    (state.1.sim.resources r).owner = none → ∀ q, q ≠ e.1 → ¬ state.1.Returning state.2 r q))

/-- The requests in the list are those made and not granted, by their first calls. -/
structure Config.Lined (c : Config n) (log : List (Line n)) (r : Fin NR_RESOURCES)
    (pending : List (Request n)) : Prop where
  first : FirstCome (calls log r) (grants log r) pending
  granted : ∀ e ∈ grants log r, e.2 ∉ (c.sim.procs e.1).resourcesToAcquire
  asks : ∀ e ∈ pending, (c.sim.procs e.1).asks = some e.2

/-- The pending requests are that of a woken process and those of the waiters. -/
structure Config.Serves (c : Config n) (log : List (Line n)) (r : Fin NR_RESOURCES)
    (woken : Option (Request n)) (waiting : List (Request n)) : Prop
    extends c.Lined log r (woken.toList ++ waiting) where
  queue : waiting.map Prod.fst = (c.sim.resources r).waitqueue
  returning : ∀ e, woken = some e →
    (c.sim.resources r).owner = none ∧ e.1 ∈ c.sim.readyqueue ++ c.pc.acquiring
  free : (c.sim.resources r).owner = none → woken = none → waiting = []

section Step

variable {c next : Config n} {log : List (Line n)} {r : Fin NR_RESOURCES}
  {pending waiting : List (Request n)} {woken : Option (Request n)} {e : Request n}

/-- The entry that the loop has reached is what the process asks for. -/
theorem Config.WellFormed.asks_reached {s : Sim n} {p : Fin n}
    {skipped todo : List ResourceSchedule} {rs : ResourceSchedule}
    (hwf : (⟨.acquire p skipped (rs :: todo), s⟩ : Config n).WellFormed)
    (hage : rs.atAge = (s.procs p).age) : (s.procs p).asks = some rs := by
  have hpending : (s.procs p).resourcesToAcquire = skipped ++ rs :: todo := hwf.shaped.2.1
  have hnone : skipped.find? (fun rs => decide (rs.atAge = (s.procs p).age)) = none := by
    simpa using hwf.shaped.2.2.1
  simp [Process.asks, hpending, hnone, hage]

theorem asks_pending {process : Process} {rs : ResourceSchedule}
    (hasks : process.asks = some rs) : rs ∈ process.resourcesToAcquire :=
  List.mem_of_find?_eq_some hasks

/-- A process that has come to the end of its entries asks for none. -/
theorem Config.WellFormed.asks_passed (hwf : c.WellFormed) {q : Fin n}
    (hgrowing : c.pc.growing = some q) : (c.sim.procs q).asks = none :=
  Option.map_eq_none_iff.mp (hwf.request_passed hgrowing)

/-- What a process asks for changes only by a grant of it. -/
theorem Effect.asks (hwf : c.WellFormed) (heffect : Effect policy c next) {q : Fin n}
    {rs : ResourceSchedule} (hasks : (c.sim.procs q).asks = some rs)
    (hcalling : c.calling rs.resourceId = [] ∨ q ∉ c.pc.acquiring) :
    (next.sim.procs q).asks = some rs := by
  have hage : (next.sim.procs q).age = (c.sim.procs q).age := by
    have hnot : c.pc.growing ≠ some q := fun hgrowing => by
      rw [hwf.asks_passed hgrowing] at hasks
      cases hasks
    rw [heffect.age hwf, if_neg hnot, Nat.add_zero]
  cases heffect.moves hwf q with
  | stay hpending | keep _ _ hpending | drop _ _ hpending =>
      rw [Process.asks, hpending, hage]
      exact hasks
  | grant hpc hreached =>
      obtain ⟨pc, s⟩ := c
      obtain rfl := hpc
      obtain rfl := Option.some.inj ((hwf.asks_reached hreached).symm.trans hasks)
      simp [Config.calling, hreached, Pc.acquiring] at hcalling

theorem Config.WellFormed.acquiring_running (hwf : c.WellFormed) {q : Fin n}
    (hacquiring : q ∈ c.pc.acquiring) : (c.sim.procs q).status = .running := by
  have hshaped := hwf.shaped
  cases hpc : c.pc with
  | acquire p skipped todo =>
      rw [hpc] at hacquiring hshaped
      rw [List.mem_singleton.mp hacquiring]
      exact hshaped.1.2
  | iterate | release | finished | failed =>
      rw [hpc] at hacquiring
      cases hacquiring

/-- A process that returns stays ready or acquiring until it has called. -/
theorem Effect.returning (hwf : c.WellFormed) (heffect : Effect policy c next) {q : Fin n}
    {rs : ResourceSchedule} (hasks : (c.sim.procs q).asks = some rs)
    (hcalling : c.calling rs.resourceId = [])
    (hplace : q ∈ c.sim.readyqueue ++ c.pc.acquiring) :
    q ∈ next.sim.readyqueue ++ next.pc.acquiring := by
  cases heffect with
  | @finish s after hturn | @idle s after hturn | @dispatch s after _ hturn =>
      have hready : q ∈ s.readyqueue := by simpa [Pc.acquiring] using hplace
      exact hturn.ready_kept hready
  | refuse | skip | grant | keep | drop | tick | finished | failed => exact hplace
  | @block s p _ skipped todo rs' hage =>
      have hq : q ≠ p := by
        rintro rfl
        obtain rfl := Option.some.inj ((hwf.asks_reached hage).symm.trans hasks)
        simp [Config.calling, hage] at hcalling
      simpa [Pc.acquiring, hq] using hplace
  | @grow s p skipped =>
      have hq : q ≠ p := by
        rintro rfl
        rw [hwf.asks_passed rfl] at hasks
        cases hasks
      have hready : q ∈ s.readyqueue := by simpa [Pc.acquiring, hq] using hplace
      exact List.mem_append_left _ hready
  | @wake s =>
      have hready : q ∈ s.readyqueue := by simpa [Pc.acquiring] using hplace
      simp [hready]

theorem Effect.lined (hwf : c.WellFormed) (heffect : Effect policy c next)
    (hlined : c.Lined log r pending) (hcalling : c.calling r = []) :
    next.Lined (log ++ c.printedLines next) r pending := by
  have hcalls : calls (log ++ c.printedLines next) r = calls log r := by
    simp [heffect.calls_step, hcalling]
  have hgrants : grants (log ++ c.printedLines next) r = grants log r := by
    simp [heffect.grants_step, hcalling]
  constructor
  case first =>
    rw [hcalls, hgrants]
    exact hlined.first
  case granted =>
    rw [hgrants]
    exact fun e he hpending => hlined.granted e he (heffect.pending_subset hwf e.1 hpending)
  case asks =>
    intro e he
    have hmem : e ∈ calls log r := (hlined.first.mem e).mpr (List.mem_append_right _ he)
    refine heffect.asks hwf (hlined.asks e he) (.inl ?_)
    rwa [resource_of_calls hmem]

theorem Effect.serves_other (hwf : c.WellFormed) (heffect : Effect policy c next)
    (hserves : c.Serves log r woken waiting) (hcalling : c.calling r = [])
    (howner : (next.sim.resources r).owner = (c.sim.resources r).owner)
    (hqueue : (next.sim.resources r).waitqueue = (c.sim.resources r).waitqueue) :
    next.Serves (log ++ c.printedLines next) r woken waiting := by
  refine ⟨heffect.lined hwf hserves.toLined hcalling, hserves.queue.trans hqueue.symm, ?_, ?_⟩
  · intro e he
    obtain ⟨hfree, hplace⟩ := hserves.returning e he
    have hpending : e ∈ woken.toList ++ waiting := by simp [he]
    have hmem : e ∈ calls log r := (hserves.first.mem e).mpr (List.mem_append_right _ hpending)
    refine ⟨howner.trans hfree, heffect.returning hwf (hserves.asks e hpending) ?_ hplace⟩
    rwa [resource_of_calls hmem]
  · intro hfree
    exact hserves.free (howner.symm.trans hfree)

/-- A request is new if it is not that of the woken process. -/
theorem Config.Serves.not_called (hserves : c.Serves log r woken waiting) {p : Fin n}
    {rs : ResourceSchedule} (hrunning : p ∉ (c.sim.resources r).waitqueue)
    (hpending : rs ∈ (c.sim.procs p).resourcesToAcquire)
    (hwoken : ∀ e, woken = some e → e.1 ≠ p) : (p, rs) ∉ calls log r := by
  intro hmem
  rcases List.mem_append.mp ((hserves.first.mem _).mp hmem) with hgranted | hmade
  · exact hserves.granted _ hgranted hpending
  · rcases List.mem_append.mp hmade with hmade | hmade
    · exact hwoken _ (Option.mem_toList.mp hmade) rfl
    · rw [← hserves.queue] at hrunning
      exact hrunning (List.mem_map_of_mem hmade)

/-- No process is woken for a resource that is owned. -/
theorem Config.Serves.woken_eq_none (hserves : c.Serves log r woken waiting)
    (howned : (c.sim.resources r).owner ≠ none) : woken = none := by
  rcases Option.eq_none_or_eq_some woken with hnone | ⟨w, hsome⟩
  · exact hnone
  · exact absurd (hserves.returning w hsome).1 howned

/-- The woken process is the one that returns. -/
theorem Config.Serves.returning_iff (hwf : c.WellFormed)
    (hserves : c.Serves log r woken waiting) {q : Fin n} :
    c.Returning log r q ↔ ∃ rs, woken = some (q, rs) := by
  constructor
  · rintro ⟨rs, hpending, hmem, hwaits⟩
    rcases List.mem_append.mp ((hserves.first.mem _).mp hmem) with hgranted | hmade
    · exact absurd hpending (hserves.granted _ hgranted)
    · rcases List.mem_append.mp hmade with hmade | hmade
      · exact ⟨rs, Option.mem_toList.mp hmade⟩
      · rw [← hserves.queue] at hwaits
        exact absurd (List.mem_map_of_mem hmade) hwaits
  · rintro ⟨rs, rfl⟩
    have hpending : (q, rs) ∈ (some (q, rs)).toList ++ waiting := by simp
    refine ⟨rs, asks_pending (hserves.asks _ hpending),
      (hserves.first.mem _).mpr (List.mem_append_right _ hpending), fun hwaits => ?_⟩
    have hwait := (hwf.queued.wait r q hwaits).1
    rcases List.mem_append.mp (hserves.returning _ rfl).2 with hready | hacquiring
    · rw [(hwf.queued.ready q hready).1] at hwait
      cases hwait
    · rw [hwf.acquiring_running hacquiring] at hwait
      cases hwait

/-- A granted request is not pending any more. -/
theorem granted_notMem {process : Process} (hdistinct : process.nodes.Nodup)
    {skipped todo : List ResourceSchedule} {rs : ResourceSchedule}
    (hpending : process.resourcesToAcquire = skipped ++ rs :: todo) : rs ∉ skipped ++ todo := by
  rw [Process.nodes, hpending, List.map_append] at hdistinct
  have hnodup := List.Nodup.of_map _ (List.nodup_append.mp hdistinct).1
  exact (List.nodup_cons.mp (List.nodup_middle.mp hnodup)).1

/-- The process that calls asks for what it calls for, and does not wait. -/
theorem Config.WellFormed.called (hwf : c.WellFormed) (hcalling : c.calling r = [e]) :
    (c.sim.procs e.1).asks = some e.2 ∧ e.1 ∉ (c.sim.resources r).waitqueue ∧
      c.pc.acquiring = [e.1] := by
  obtain ⟨pc, s⟩ := c
  cases pc with
  | acquire p skipped todo =>
      cases todo with
      | nil => cases hcalling
      | cons rs todo =>
          by_cases hcall : rs.atAge = (s.procs p).age ∧ rs.resourceId = r
          · simp only [Config.calling, if_pos hcall, List.cons.injEq, and_true] at hcalling
            subst hcalling
            refine ⟨hwf.asks_reached hcall.1, fun hwaits => ?_, rfl⟩
            exact hwf.queued.not_linked hwf.shaped.1.2 (.inr (.inr ⟨r, hwaits⟩))
          · simp [Config.calling, hcall] at hcalling
  | iterate | release | finished | failed => cases hcalling

/-- The process that calls is not a waiter. -/
theorem Effect.asks_waiting (hwf : c.WellFormed) (heffect : Effect policy c next)
    (hserves : c.Serves log r woken waiting) (hcalling : c.calling r = [e]) :
    ∀ w ∈ waiting, (next.sim.procs w.1).asks = some w.2 := by
  intro w hw
  obtain ⟨-, hrunning, hacquiring⟩ := hwf.called hcalling
  refine heffect.asks hwf (hserves.asks w (List.mem_append_right _ hw)) (.inr ?_)
  rw [hacquiring, List.mem_singleton]
  intro heq
  rw [← heq, ← hserves.queue] at hrunning
  exact hrunning (List.mem_map_of_mem hw)

/-- A call for a free resource, by the woken process if there is one. -/
theorem Effect.serves_grant (hwf : c.WellFormed) (heffect : Effect policy c next)
    (hserves : c.Serves log r woken waiting) (hcalling : c.calling r = [e])
    (hfree : (c.sim.resources r).owner = none) (hturn : ∀ w, woken = some w → w.1 = e.1)
    (hgone : e.2 ∉ (next.sim.procs e.1).resourcesToAcquire)
    (howner : (next.sim.resources r).owner ≠ none)
    (hqueue : (next.sim.resources r).waitqueue = (c.sim.resources r).waitqueue) :
    next.Serves (log ++ c.printedLines next) r none waiting := by
  obtain ⟨hasks, hrunning, -⟩ := hwf.called hcalling
  have hcalls : calls (log ++ c.printedLines next) r = calls log r ++ [e] := by
    rw [heffect.calls_step, hcalling]
  have hgrants : grants (log ++ c.printedLines next) r = grants log r ++ [e] := by
    rw [heffect.grants_step, if_pos hfree, hcalling]
  have hfirst : FirstCome (calls log r ++ [e]) (grants log r ++ [e]) waiting := by
    rcases Option.eq_none_or_eq_some woken with rfl | ⟨w, rfl⟩
    · obtain rfl := hserves.free hfree rfl
      have hnew := hserves.not_called hrunning (asks_pending hasks) (by simp)
      exact (hserves.first.join hnew).serve
    · have hpending : w ∈ (some w).toList ++ waiting := by simp
      have hasks' := hserves.asks w hpending
      obtain rfl : w = e := by
        have hsame := hturn w rfl
        rw [hsame, hasks] at hasks'
        exact Prod.ext hsame (Option.some.inj hasks').symm
      have hmem := (hserves.first.mem w).mpr (List.mem_append_right _ hpending)
      exact (hserves.first.again hmem).serve
  refine ⟨⟨?_, ?_, ?_⟩, hserves.queue.trans hqueue.symm, by simp, fun hnone => absurd hnone howner⟩
  · rw [hcalls, hgrants]
    exact hfirst
  · rw [hgrants]
    intro g hg
    rcases List.mem_append.mp hg with hg | hg
    · exact fun hpending => hserves.granted g hg (heffect.pending_subset hwf g.1 hpending)
    · rw [List.mem_singleton.mp hg]
      exact hgone
  · exact heffect.asks_waiting hwf hserves hcalling

/-- A call for a resource that is owned. -/
theorem Effect.serves_block (hwf : c.WellFormed) (heffect : Effect policy c next)
    (hserves : c.Serves log r woken waiting) (hcalling : c.calling r = [e])
    (howned : (c.sim.resources r).owner ≠ none) (hasking : (next.sim.procs e.1).asks = some e.2)
    (howner : (next.sim.resources r).owner = (c.sim.resources r).owner)
    (hqueue : (next.sim.resources r).waitqueue = (c.sim.resources r).waitqueue ++ [e.1]) :
    next.Serves (log ++ c.printedLines next) r none (waiting ++ [e]) := by
  obtain ⟨hasks, hrunning, -⟩ := hwf.called hcalling
  have hcalls : calls (log ++ c.printedLines next) r = calls log r ++ [e] := by
    rw [heffect.calls_step, hcalling]
  have hgrants : grants (log ++ c.printedLines next) r = grants log r := by
    rw [heffect.grants_step, if_neg howned, List.append_nil]
  obtain rfl := hserves.woken_eq_none howned
  have hnew := hserves.not_called hrunning (asks_pending hasks) (by simp)
  refine ⟨⟨?_, ?_, ?_⟩, ?_, by simp, fun hnone => absurd (howner.symm.trans hnone) howned⟩
  · rw [hcalls, hgrants]
    exact hserves.first.join hnew
  · rw [hgrants]
    exact fun g hg hpending => hserves.granted g hg (heffect.pending_subset hwf g.1 hpending)
  · intro w (hw : w ∈ waiting ++ [e])
    rcases List.mem_append.mp hw with hw | hw
    · exact heffect.asks_waiting hwf hserves hcalling w hw
    · rw [List.mem_singleton.mp hw]
      exact hasking
  · rw [List.map_append, hserves.queue, hqueue]
    rfl

/-- A release wakes the first waiter. -/
theorem Effect.serves_release (hwf : c.WellFormed) (heffect : Effect policy c next)
    (hserves : c.Serves log r woken waiting) (hcalling : c.calling r = [])
    (howned : (c.sim.resources r).owner ≠ none) (hfree : (next.sim.resources r).owner = none)
    (hqueue : (next.sim.resources r).waitqueue = (c.sim.resources r).waitqueue.tail)
    (hready : ∀ q ∈ (c.sim.resources r).waitqueue.head?, q ∈ next.sim.readyqueue) :
    next.Serves (log ++ c.printedLines next) r waiting.head? waiting.tail := by
  obtain rfl := hserves.woken_eq_none howned
  have hsplit : waiting.head?.toList ++ waiting.tail = waiting := by
    cases waiting <;> rfl
  refine ⟨?_, ?_, ?_, ?_⟩
  · rw [hsplit]
    exact heffect.lined hwf hserves.toLined hcalling
  · rw [hqueue, ← hserves.queue, List.map_tail]
  · intro w hw
    refine ⟨hfree, List.mem_append_left _ (hready w.1 ?_)⟩
    rw [← hserves.queue, List.head?_map, hw]
    rfl
  · intro _ hnone
    rw [List.head?_eq_none_iff] at hnone
    rw [hnone]
    rfl

/-- While calls are made in turn the callers are in line. -/
theorem Effect.serves (hwf : c.WellFormed) (hdistinct : c.Distinct)
    (hwaiter : ∀ (s : Sim n) first rest, policy.waiter s first rest = first)
    (heffect : Effect policy c next) (hturn : InTurn (c, log))
    (hserves : c.Serves log r woken waiting) :
    ∃ woken waiting, next.Serves (log ++ c.printedLines next) r woken waiting := by
  have hstep := heffect
  cases heffect with
  | @finish s after hnext | @idle s after hnext | @dispatch s after _ hnext =>
      have hresources : after.resources = s.resources := hnext.resources
      exact ⟨woken, waiting, hstep.serves_other hwf hserves rfl
        (congrArg (fun resources => (resources r).owner) hresources)
        (congrArg (fun resources => (resources r).waitqueue) hresources)⟩
  | refuse | grow | keep | tick | finished | failed =>
      exact ⟨woken, waiting, hstep.serves_other hwf hserves rfl rfl rfl⟩
  | @skip s p skipped todo rs hage =>
      have hcalling : Config.calling ⟨.acquire p skipped (rs :: todo), s⟩ r = [] := by
        simp [Config.calling, hage]
      exact ⟨woken, waiting, hstep.serves_other hwf hserves hcalling rfl rfl⟩
  | @grant s p skipped todo rs hage hfree =>
      by_cases hr : rs.resourceId = r
      · have hcalling : Config.calling ⟨.acquire p skipped (rs :: todo), s⟩ r = [(p, rs)] := by
          simp [Config.calling, hage, hr]
        subst hr
        refine ⟨none, waiting, hstep.serves_grant hwf hserves hcalling hfree ?_ ?_ ?_ ?_⟩
        · intro w hw
          by_contra hne
          exact hturn _ (p, rs) (by simp [hcalling]) hfree w.1 hne
            ((hserves.returning_iff hwf).mpr ⟨w.2, hw⟩)
        · rw [Sim.granted_self]
          exact granted_notMem (hdistinct p) hwf.shaped.2.1
        · simp [Sim.granted_owner]
        · simp
      · refine ⟨woken, waiting, hstep.serves_other hwf hserves ?_ ?_ ?_⟩
        · simp [Config.calling, hr]
        · simp [Sim.granted_owner, Ne.symm hr]
        · simp
  | @block s p q skipped todo rs hage howned =>
      by_cases hr : rs.resourceId = r
      · have hcalling : Config.calling ⟨.acquire p skipped (rs :: todo), s⟩ r = [(p, rs)] := by
          simp [Config.calling, hage, hr]
        subst hr
        refine ⟨none, waiting ++ [(p, rs)], hstep.serves_block hwf hserves hcalling ?_ ?_ ?_ ?_⟩
        · simp [howned]
        · rw [Sim.blocked_self]
          exact hwf.asks_reached hage
        · simp
        · simp [Sim.blocked_waitqueue]
      · refine ⟨woken, waiting, hstep.serves_other hwf hserves ?_ ?_ ?_⟩
        · simp [Config.calling, hr]
        · simp
        · simp [Sim.blocked_waitqueue, Ne.symm hr]
  | @drop s p kept todo rs prios _ _ howner hqueue =>
      by_cases hr : rs.resourceId = r
      · subst hr
        refine ⟨_, _, hstep.serves_release hwf hserves rfl ?_ ?_ ?_ ?_⟩
        · simp [howner]
        · simp [Sim.freed_owner]
        · simp [hqueue]
        · simp [hqueue]
      · refine ⟨woken, waiting, hstep.serves_other hwf hserves rfl ?_ ?_⟩
        · simp [Sim.freed_owner, Ne.symm hr]
        · simp
  | @wake s p first waiter rest kept todo rs prios _ _ howner hqueue _ hwoken =>
      by_cases hr : rs.resourceId = r
      · subst hr
        rw [hwaiter] at hwoken
        refine ⟨_, _, hstep.serves_release hwf hserves rfl ?_ ?_ ?_ ?_⟩
        · simp [howner]
        · simp [Sim.freed_owner]
        · simp [Sim.moveToReady_waitqueue, hqueue, hwoken]
        · simp [hqueue, hwoken]
      · refine ⟨woken, waiting, hstep.serves_other hwf hserves rfl ?_ ?_⟩
        · simp [Sim.freed_owner, Ne.symm hr]
        · simp [Sim.moveToReady_waitqueue, Ne.symm hr]

end Step

/-! ## Runs -/

/-- The requests of every resource are granted in the order in which they are made. -/
def InRequestingOrder (log : List (Line n)) : Prop :=
  ∀ r, ServedInOrder (calls log r) (grants log r)

theorem start_serves (script : Script n) (r : Fin NR_RESOURCES) :
    script.start.Serves [] r none [] where
  first := .nil
  granted := by simp [grants]
  asks := by simp
  queue := rfl
  returning := by simp
  free _ _ := rfl

section Runs

variable {sched : Scheduler n} (hlaw : Lawful sched policy)
  (hwaiter : ∀ (s : Sim n) first rest, policy.waiter s first rest = first) {script : Script n}
  {c : Config n} {log : List (Line n)}

include hlaw hwaiter

theorem restricted_serves
    (hreach : ((sched.logged script).restrict InTurn).Reachable (c, log)) (r : Fin NR_RESOURCES) :
    ∃ woken waiting, c.Serves log r woken waiting := by
  apply hreach.invariant fun state => ∃ woken waiting, state.1.Serves state.2 r woken waiting
  · exact ⟨none, [], start_serves script r⟩
  · rintro ⟨c, log⟩ - next hstate ⟨woken, waiting, hserves⟩ ⟨hturn, rfl⟩
    have hlogged := hstate.of_restrict
    have hwf := reachable_wellFormed hlaw hlogged.of_logged
    have hnext := (step_effect hlaw hwf).serves hwf (reachable_distinct hlaw hlogged.of_logged)
      hwaiter hturn hserves
    rwa [← lines_eq hlaw hwf] at hnext

/-- A step out of turn grants a later request first. -/
theorem inTurn_of_order (hreach : ((sched.logged script).restrict InTurn).Reachable (c, log))
    (horder : InRequestingOrder (log ++ sched.lines c)) : InTurn (c, log) := by
  intro r e he hfree q hq hreturning
  have hwf := reachable_wellFormed hlaw hreach.of_restrict.of_logged
  obtain ⟨woken, waiting, hserves⟩ := restricted_serves hlaw hwaiter hreach r
  obtain ⟨rs, hwoken⟩ := (hserves.returning_iff hwf).mp hreturning
  have hcalling := calling_eq he
  obtain ⟨hasks, hrunning, -⟩ := hwf.called hcalling
  have hpending : (q, rs) ∈ woken.toList ++ waiting := by simp [hwoken]
  have hnew : e ∉ calls log r := by
    refine hserves.not_called hrunning (asks_pending hasks) fun w hw => ?_
    rw [hwoken] at hw
    obtain rfl := Option.some.inj hw
    exact hq
  have heffect := step_effect hlaw hwf
  have hserved := horder r
  rw [lines_eq hlaw hwf, heffect.calls_step, heffect.grants_step, if_pos hfree, hcalling]
    at hserved
  exact not_servedInOrder ((hserves.first.mem _).mpr (List.mem_append_right _ hpending))
    (hserves.first.notMem_grants hpending) hnew hserved

theorem inRequestingOrder_iff (hreach : (sched.logged script).Reachable (c, log)) :
    InRequestingOrder log ↔ ((sched.logged script).restrict InTurn).Reachable (c, log) := by
  constructor
  · apply hreach.logged_invariant fun c log =>
      InRequestingOrder log → ((sched.logged script).restrict InTurn).Reachable (c, log)
    · exact fun _ => Machine.reachable_init
    · intro c log _ hrestricted horder
      have hbefore : InRequestingOrder log := fun r => by
        have hserved := horder r
        rw [calls_append, grants_append] at hserved
        exact hserved.of_append
      have hstate := hrestricted hbefore
      exact hstate.step (show ((sched.logged script).restrict InTurn).step (c, log) () _ from
        ⟨inTurn_of_order hlaw hwaiter hstate horder, rfl⟩)
  · intro hrestricted r
    obtain ⟨woken, waiting, hserves⟩ := restricted_serves hlaw hwaiter hrestricted r
    exact hserves.first.servedInOrder

end Runs

/-- A run of `prio_scheduler` grants the requests of every resource in the order in which
they are made exactly as long as nobody takes a resource to which another process is
returning. -/
theorem requesting_order {script : Script n} {c : Config n} {log : List (Line n)}
    (hreach : (prioScheduler.logged script).Reachable (c, log)) :
    InRequestingOrder log ↔
      ((prioScheduler.logged script).restrict InTurn).Reachable (c, log) :=
  inRequestingOrder_iff prioScheduler_lawful (fun _ _ _ => rfl) hreach

section Play

variable (sched : Scheduler n) (script : Script n) {count : Nat}

theorem play_inTurn (hturns : ∀ i < count, InTurn (sched.play script i)) :
    ((sched.logged script).restrict InTurn).Reachable
      ((sched.play script count).1, (sched.play script count).2) :=
  Machine.restrict_iterate hturns

end Play

/-- Two processes that request a resource while it is held. -/
def patient : Script 3 :=
  ![⟨1, 0, 5, 10, [⟨0, 0, 4⟩]⟩,
    ⟨2, 1, 1, 10, [⟨0, 0, 1⟩]⟩,
    ⟨3, 2, 1, 10, [⟨0, 0, 1⟩]⟩]

/-- The processes of `patient` are granted the resource one after the other. -/
theorem requesting_order_patient :
    (grants (prioScheduler.play patient 33).2 0).map Prod.fst = [0, 1, 2] ∧
      InRequestingOrder (prioScheduler.play patient 33).2 := by
  have hturns : ∀ count < 33, InTurn (prioScheduler.play patient count) := by decide +kernel
  exact ⟨by decide +kernel, (requesting_order (play_reachable prioScheduler patient 33)).mpr
    (play_inTurn prioScheduler patient hturns)⟩

/-- A process that requests the resource when it was released for another one. -/
def overtaken : Script 3 :=
  ![⟨1, 0, 3, 10, [⟨0, 0, 2⟩]⟩,
    ⟨2, 1, 1, 10, [⟨0, 0, 1⟩]⟩,
    ⟨3, 2, 1, 10, [⟨0, 0, 1⟩]⟩]

/-- The third process of `overtaken` is granted the resource ahead of the second one. -/
theorem overtaken_out_of_order :
    (∀ p q, (overtaken p).prio = (overtaken q).prio) ∧
      ¬ ∀ c log, (prioScheduler.logged overtaken).Reachable (c, log) → InRequestingOrder log := by
  refine ⟨by decide, fun horder => ?_⟩
  have hserved := horder _ _ (play_reachable prioScheduler overtaken 18) 0
    (1, ⟨⟨0, 0, 1⟩, 0⟩) (2, ⟨⟨0, 0, 1⟩, 0⟩)
  exact absurd (hserved (by decide +kernel) (by decide +kernel)) (by decide +kernel)

end OperatingSystem.Sched
