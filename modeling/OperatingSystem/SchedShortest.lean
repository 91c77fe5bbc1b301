import OperatingSystem.SchedPlain

/-!
# What the shortest-job schedulers pick

`sjf_schedule` starts its search at the bound 100, and finds nothing when no ready process
has a shorter lifespan. `srtf_schedule` starts from the front of the ready queue and visits
the unfinished current process and the ready queue; it compares lifespans, and not the time
that remains of them.
-/

namespace OperatingSystem.Sched

variable {n : Nat}

def Sim.lifespan (s : Sim n) (p : Fin n) : Nat := (s.procs p).lifespan

/-- The time that a process still has to run. -/
def Sim.remaining (s : Sim n) (p : Fin n) : Nat := (s.procs p).lifespan - (s.procs p).age

/-! ## Shortest job first -/

/-- `sjf_schedule` returns null if the ready queue is empty, and otherwise takes the first
process of the least lifespan off it. -/
def Sim.PicksShortest (s : Sim n) : Prop :=
  ∃ next, sjfSchedule s =
      .ok (next, { s with readyqueue := next.elim s.readyqueue s.readyqueue.erase }) ∧
    (next = none ↔ s.readyqueue = []) ∧
    ∀ p, next = some p → FirstLeast s.lifespan s.readyqueue p

/-- There is no ready process, or one of a lifespan that the search can find. -/
def Sim.Findable (s : Sim n) : Prop :=
  s.readyqueue = [] ∨ ∃ p ∈ s.readyqueue, s.lifespan p < 100

theorem unfinished_eq_none {s : Sim n}
    (hdone : ∀ p, s.current = some p → (s.procs p).lifespan ≤ (s.procs p).age) :
    s.unfinished = none := by
  rw [Sim.unfinished, Option.filter_eq_none_iff]
  intro p hcurrent
  simpa using hdone p hcurrent

theorem sjfSmallest_eq (s : Sim n) (lsChk : Nat) :
    sjfSmallest s lsChk = (scanBelow s.lifespan lsChk s.readyqueue).1 := rfl

theorem sjfSchedule_findable {s : Sim n} (hdone : s.unfinished = none) (hfound : s.Findable) :
    s.PicksShortest := by
  cases hready : s.readyqueue with
  | nil =>
      have hschedule : sjfSchedule s = .ok (none, s) := by simp only [sjfSchedule, hdone, hready]
      exact ⟨none, hschedule, by simp [hready], by simp⟩
  | cons first rest =>
      obtain ⟨p, hp, hbelow⟩ := hfound.resolve_left (by simp [hready])
      rcases scanBelow_spec s.lifespan 100 s.readyqueue with
        ⟨smallest, hscan, -, hleast⟩ | ⟨-, habove⟩
      · refine ⟨some smallest, ?_, by simp [hready], fun q hq => Option.some.inj hq ▸ hleast⟩
        have hsmallest : sjfSmallest s 100 = some smallest := by rw [sjfSmallest_eq, hscan]
        simp only [sjfSchedule, hdone, hready, hsmallest, Option.elim_some]
      · exact absurd hbelow (not_lt.mpr (habove p hp))

/-- The search finds nothing, and `list_del_init` gets a null pointer. -/
theorem sjfSchedule_crash {s : Sim n} (hdone : s.unfinished = none) (hlost : ¬ s.Findable) :
    sjfSchedule s = .error .nullPointer := by
  rw [Sim.Findable, not_or, not_exists] at hlost
  obtain ⟨hne, hlong⟩ := hlost
  obtain ⟨first, rest, hready⟩ := List.exists_cons_of_ne_nil hne
  have hnone : sjfSmallest s 100 = none := by
    rcases scanBelow_spec s.lifespan 100 s.readyqueue with ⟨p, -, hbelow, hleast⟩ | ⟨hscan, -⟩
    · exact absurd ⟨hleast.mem, hbelow⟩ (hlong p)
    · rw [sjfSmallest_eq, hscan]
  simp only [sjfSchedule, hdone, hready, hnone]

/-- **SJF picks the shortest job**, if there is one shorter than the bound of its search. -/
theorem sjf_picks_shortest {s : Sim n}
    (hdone : ∀ p, s.current = some p → (s.procs p).lifespan ≤ (s.procs p).age) :
    s.PicksShortest ↔ s.Findable := by
  have hnone := unfinished_eq_none hdone
  refine ⟨fun hpicks => ?_, sjfSchedule_findable hnone⟩
  by_contra hlost
  obtain ⟨next, hschedule, -⟩ := hpicks
  rw [sjfSchedule_crash hnone hlost] at hschedule
  cases hschedule

/-- The call of `sjf_schedule` in the first iteration. -/
def Script.called (script : Script n) : Sim n := __forkOnSchedule script.load

/-- Two processes, the first one of a hundred ticks. -/
def lengthy : Script 2 := ![⟨1, 0, 100, 0, []⟩, ⟨2, 0, 99, 0, []⟩]

/-- The second process of `lengthy` is short enough. -/
theorem sjf_picks_shortest_lengthy : lengthy.called.PicksShortest := by
  have hdone : ∀ p, lengthy.called.current = some p →
      (lengthy.called.procs p).lifespan ≤ (lengthy.called.procs p).age := fun p hcurrent => by
    cases hcurrent
  exact (sjf_picks_shortest hdone).mpr (.inr ⟨1, by decide +kernel, by decide +kernel⟩)

/-- One process of a hundred ticks. -/
def lonely : Script 1 := ![⟨1, 0, 100, 0, []⟩]

/-- The first call of `sjf_schedule` on `lonely` removes through a null pointer. -/
theorem lonely_not_picked : lonely.called.current = none ∧ ¬ lonely.called.PicksShortest ∧
    (sjfScheduler.next lonely.start).pc = .failed .nullPointer := by
  have hlost : ¬ lonely.called.Findable := by
    rintro (hempty | ⟨p, -, hshort⟩)
    · exact absurd hempty (by decide +kernel)
    · revert p
      decide +kernel
  refine ⟨rfl, ?_, by decide +kernel⟩
  rintro ⟨next, hschedule, -⟩
  rw [sjfSchedule_crash rfl hlost] at hschedule
  cases hschedule

/-! ## Shortest remaining time first -/

namespace Sim

/-- The processes that can run if nobody is blocked. -/
def contenders (s : Sim n) : List (Fin n) := s.readyqueue ++ s.unfinished.toList

/-- The processes in the order in which `srtf_schedule` visits them. -/
def visited (s : Sim n) : List (Fin n) :=
  s.readyqueue.head?.toList ++ s.unfinished.toList ++ s.readyqueue

/-- The first process is shorter than the second, or as short and visited earlier. -/
def Ahead (s : Sim n) (first second : Fin n) : Prop :=
  s.lifespan first < s.lifespan second ∨
    s.lifespan first = s.lifespan second ∧ s.visited.idxOf first < s.visited.idxOf second

/-- `srtf_schedule` returns null if there is no contender, and otherwise one of the least
remaining time; the other contenders are on the ready queue then. -/
def PicksLeastRemaining (s : Sim n) : Prop :=
  ∃ next queue, srtfSchedule s = .ok (next, { s with readyqueue := queue }) ∧
    (next = none ↔ s.contenders = []) ∧
    (∀ p, next = some p → p ∈ s.contenders ∧
      ∀ q ∈ s.contenders, s.remaining p ≤ s.remaining q) ∧
    (next.toList ++ queue).Perm s.contenders

/-- A contender that has more time left than another one has some contender ahead of it. -/
def Consistent (s : Sim n) : Prop :=
  ∀ p ∈ s.contenders, ∀ q ∈ s.contenders, s.remaining q < s.remaining p →
    ∃ other ∈ s.contenders, s.Ahead other p

instance (s : Sim n) (first second : Fin n) : Decidable (s.Ahead first second) :=
  inferInstanceAs (Decidable (_ ∨ _))

instance (s : Sim n) : Decidable s.Consistent :=
  inferInstanceAs (Decidable (∀ _ ∈ s.contenders, ∀ _ ∈ s.contenders, _))

theorem mem_visited {s : Sim n} {p : Fin n} : p ∈ s.visited ↔ p ∈ s.contenders := by
  have hhead : p ∈ s.readyqueue.head?.toList → p ∈ s.readyqueue := fun hp =>
    List.mem_of_mem_head? (Option.mem_toList.mp hp)
  simp only [visited, contenders, List.mem_append]
  tauto

end Sim

theorem unfinished_of_current {s : Sim n} {p : Fin n} (hcurrent : s.current = some p) :
    s.unfinished = if (s.procs p).age < (s.procs p).lifespan then some p else none := by
  simp [Sim.unfinished, hcurrent, Option.filter]

/-- The queue that is searched, with an unfinished current process at its head. -/
theorem requeued_eq {s : Sim n} {p : Fin n} (hcurrent : s.current = some p) :
    (if (s.procs p).age < (s.procs p).lifespan then p :: s.readyqueue else s.readyqueue) =
      s.unfinished.toList ++ s.readyqueue := by
  rw [unfinished_of_current hcurrent]
  by_cases hage : (s.procs p).age < (s.procs p).lifespan <;> simp [hage]

/-- Contenders are no older than their lifespans. -/
theorem Sim.contender_age {s : Sim n}
    (hages : ∀ q ∈ s.readyqueue, (s.procs q).age ≤ (s.procs q).lifespan) {p : Fin n}
    (hp : p ∈ s.contenders) : (s.procs p).age ≤ (s.procs p).lifespan := by
  rcases List.mem_append.mp hp with hready | hcurrent
  · exact hages p hready
  · have hunfinished : s.unfinished = some p := Option.mem_toList.mp hcurrent
    rw [Sim.unfinished, Option.filter_eq_some_iff] at hunfinished
    exact (of_decide_eq_true hunfinished.2).le

/-- `srtf_schedule` takes the first process of the least lifespan, in the order in which it
visits them. -/
theorem srtfSchedule_spec {s : Sim n}
    (hages : ∀ q ∈ s.readyqueue, (s.procs q).age ≤ (s.procs q).lifespan) :
    (s.contenders = [] ∧ srtfSchedule s = .ok (none, s)) ∨
      ∃ p, FirstLeast s.lifespan s.visited p ∧ srtfSchedule s =
        .ok (some p, { s with readyqueue := (s.unfinished.toList ++ s.readyqueue).erase p }) := by
  rcases Option.eq_none_or_eq_some s.current with hcurrent | ⟨p, hcurrent⟩
  · have hunfinished : s.unfinished = none := by simp [Sim.unfinished, hcurrent]
    cases hready : s.readyqueue with
    | nil =>
        left
        refine ⟨by simp [Sim.contenders, hunfinished, hready], ?_⟩
        simp only [srtfSchedule, hcurrent, hready]
    | cons first rest =>
        refine .inr ⟨scanMin s.lifespan first (first :: rest), ?_, ?_⟩
        · have hvisited : s.visited = first :: first :: rest := by
            simp [Sim.visited, hunfinished, hready]
          rw [hvisited]
          exact scanMin_firstLeast s.lifespan first (first :: rest)
        · simp only [srtfSchedule, hcurrent, hready, hunfinished]
          rfl
  · have hunfinished := unfinished_of_current hcurrent
    by_cases hready : s.readyqueue = []
    · by_cases hage : (s.procs p).age < (s.procs p).lifespan
      · rw [if_pos hage] at hunfinished
        have hvisited : s.visited = [p] := by simp [Sim.visited, hunfinished, hready]
        have hqueue : (s.unfinished.toList ++ s.readyqueue).erase p = s.readyqueue := by
          simp [hunfinished]
        refine .inr ⟨p, ?_, ?_⟩
        · rw [hvisited]
          exact ⟨[], [], rfl, by simp, by simp⟩
        · have hschedule : srtfSchedule s = .ok (some p, s) := by
            simp only [srtfSchedule, hcurrent, hready, if_pos hage]
          rw [hschedule, hqueue]
      · rw [if_neg hage] at hunfinished
        refine .inl ⟨by simp [Sim.contenders, hunfinished, hready], ?_⟩
        simp only [srtfSchedule, hcurrent, hready, if_neg hage]
    · obtain ⟨first, rest, hready⟩ := List.exists_cons_of_ne_nil hready
      have hqueue := requeued_eq hcurrent
      have hvisited : s.visited = first :: (s.unfinished.toList ++ s.readyqueue) := by
        simp [Sim.visited, hready]
      let smallest := scanMin s.lifespan first (s.unfinished.toList ++ s.readyqueue)
      have hleast : FirstLeast s.lifespan s.visited smallest := by
        rw [hvisited]
        exact scanMin_firstLeast s.lifespan first _
      have hyoung := Sim.contender_age hages (Sim.mem_visited.mp hleast.mem)
      refine .inr ⟨smallest, hleast, ?_⟩
      simp only [srtfSchedule, hcurrent, hready] at hqueue ⊢
      rw [hqueue, ← hready]
      exact if_pos hyoung

theorem srtfSchedule_picks {s : Sim n}
    (hages : ∀ q ∈ s.readyqueue, (s.procs q).age ≤ (s.procs q).lifespan) :
    s.PicksLeastRemaining ↔ s.Consistent := by
  rcases srtfSchedule_spec hages with ⟨hempty, hschedule⟩ | ⟨p, hleast, hschedule⟩
  · have hready : s.readyqueue = [] := (List.append_eq_nil_iff.mp hempty).1
    refine iff_of_true ⟨none, s.readyqueue, hschedule, by simp [hempty], by simp, ?_⟩ ?_
    · simp [hempty, hready]
    · intro p hp
      simp [hempty] at hp
  · have hp : p ∈ s.contenders := Sim.mem_visited.mp hleast.mem
    constructor
    · rintro ⟨next, queue, hschedule', -, hpicks, -⟩ x hx q hq hlt
      rw [hschedule] at hschedule'
      obtain rfl : some p = next := congrArg Prod.fst (Except.ok.inj hschedule')
      have hne : p ≠ x := by
        rintro rfl
        exact absurd hlt (not_lt.mpr ((hpicks p rfl).2 q hq))
      exact ⟨p, hp, hleast.ahead (Sim.mem_visited.mpr hx) hne⟩
    · intro hconsistent
      have hmem : p ∈ s.unfinished.toList ++ s.readyqueue :=
        List.perm_append_comm.mem_iff.mp hp
      refine ⟨some p, _, hschedule, ?_, fun x hx => ?_, ?_⟩
      · simp [List.ne_nil_of_mem hp]
      · obtain rfl : p = x := Option.some.inj hx
        refine ⟨hp, fun q hq => ?_⟩
        by_contra hlt
        obtain ⟨other, hother, hahead⟩ := hconsistent p hp q hq (not_le.mp hlt)
        exact (firstLeast_iff.mp hleast).2 other (Sim.mem_visited.mpr hother) hahead
      · exact (List.perm_cons_erase hmem).symm.trans List.perm_append_comm

/-- `srtf_schedule` never crashes. -/
theorem srtfSchedule_ok {s : Sim n}
    (hages : ∀ q ∈ s.readyqueue, (s.procs q).age ≤ (s.procs q).lifespan) {fault : Fault} :
    srtfSchedule s ≠ .error fault := by
  rcases srtfSchedule_spec hages with ⟨-, hschedule⟩ | ⟨p, -, hschedule⟩ <;>
    simp [hschedule]

/-- **SRTF picks the least remaining time**, in the states in which it agrees with the total
lifespans: a contender that has more time left than another is not the first one of the
least lifespan. -/
theorem srtf_picks_least {script : Script n} (hplain : script.Plain) {c : Config n}
    (hreach : (srtfScheduler.machine script).Reachable c) (hpc : c.pc = .iterate) :
    (__forkOnSchedule c.sim).PicksLeastRemaining ↔ (__forkOnSchedule c.sim).Consistent := by
  have hblind : Blind (srtfScheduler : Scheduler n) := srtfScheduler_blind
  have hcompleted := (hblind.plain_reachable hplain hreach).resolve_right (by simp [hpc])
  have hqueued := (reachable_wellFormed hblind.completed_lawful hcompleted).queued
  exact srtfSchedule_picks fun q hq => ((forkOnSchedule_queued hqueued).ready q hq).2

/-- A process of five ticks, and one that arrives when three of them remain. -/
def arriving (lifespan : Nat) : Script 2 := ![⟨1, 0, 5, 0, []⟩, ⟨2, 2, lifespan, 0, []⟩]

theorem arriving_plain (lifespan : Nat) : (arriving lifespan).Plain :=
  Fin.forall_fin_two.mpr ⟨rfl, rfl⟩

theorem srtf_picks_least_arriving :
    (__forkOnSchedule (srtfScheduler.next^[6] (arriving 2).start).sim).PicksLeastRemaining := by
  have hreach : (srtfScheduler.machine (arriving 2)).Reachable _ := Machine.reachable_iterate _ _ 6
  exact (srtf_picks_least (arriving_plain 2) hreach (by decide +kernel)).mpr (by decide +kernel)

/-- A process of four ticks is preferred to the three ticks that remain. -/
theorem arriving_not_least : (arriving 4).Plain ∧
    ¬ ∀ c, (srtfScheduler.machine (arriving 4)).Reachable c → c.pc = .iterate →
      (__forkOnSchedule c.sim).PicksLeastRemaining := by
  refine ⟨arriving_plain 4, fun hclaim => ?_⟩
  have hpicks := hclaim _ (Machine.reachable_iterate _ _ 6) (by decide +kernel)
  have hconsistent := (srtfSchedule_picks (by decide +kernel)).mp hpicks
  exact absurd hconsistent (by decide +kernel)

end OperatingSystem.Sched
