import OperatingSystem.SchedEffect
import Mathlib.Data.Fin.VecNotation

/-!
# Queue integrity
-/

namespace OperatingSystem.Sched

variable {n : Nat} {policy : Policy n}

/-! ## Turns -/

section Turn

variable {s after : Sim n} {next : Option (Fin n)} (hturn : Turn policy s next after)

include hturn

theorem Turn.next_candidate {p : Fin n} (hnext : next = some p) : p ∈ s.candidates :=
  hturn.chosen.perm.mem_iff.mp (by simp [hnext])

theorem Turn.ready_candidate {p : Fin n} (hready : p ∈ after.readyqueue) : p ∈ s.candidates :=
  hturn.chosen.perm.mem_iff.mp (List.mem_append_right _ hready)

theorem Turn.owned (howned : s.Owned) : after.Owned := by
  refine howned.congr (fun r => by rw [hturn.resources]) (fun q => by rw [hturn.frame]; rfl) ?_
  intro p hexit
  rw [hturn.status, Sim.turnedStatus] at hexit
  rw [hturn.frame]
  show (s.procs p).resourcesHolding = []
  by_cases hnext : next = some p
  · simp [hnext] at hexit
  · by_cases hcurrent : s.current = some p
    · rw [if_neg hnext, if_pos hcurrent, Process.updatedStatus] at hexit
      by_cases hage : (s.procs p).age = (s.procs p).lifespan
      · exact (hturn.retired p hcurrent hage).2.1
      · rw [if_neg hage] at hexit
        by_cases hrun : (s.procs p).status = .running
        · simp [hrun] at hexit
        · rw [if_neg hrun] at hexit
          exact howned.exited p hexit
    · rw [if_neg hnext, if_neg hcurrent] at hexit
      exact howned.exited p hexit

variable (hqueued : s.Queued) (hshaped : Pc.Shaped s .iterate)

include hqueued hshaped

theorem Turn.nodup : (next.toList ++ after.readyqueue).Nodup :=
  hturn.chosen.perm.nodup_iff.mpr (candidates_nodup hqueued hshaped)

theorem Turn.next_not_ready {p : Fin n} (hready : p ∈ after.readyqueue) : next ≠ some p := by
  intro hnext
  have hnodup := hturn.nodup hqueued hshaped
  simp only [hnext, Option.toList_some, List.singleton_append, List.nodup_cons] at hnodup
  exact hnodup.1 hready

/-- A forked process was not running, and is not the next one. -/
theorem Turn.fork_status {p : Fin n} (hfork : p ∈ s.forkqueue) :
    (after.procs p).status = .ready := by
  have hready := (hqueued.fork p hfork).1
  have hnext : next ≠ some p := by
    intro hnext
    rcases candidate_status hqueued hshaped (hturn.next_candidate hnext) with
      ⟨hmem, -⟩ | ⟨-, hrun⟩
    · exact hqueued.disjoint p hfork hmem
    · exact hqueued.not_linked hrun (.inl hfork)
  have hcurrent : s.current ≠ some p := by
    intro hcurrent
    have hstatus := current_status hqueued hshaped hcurrent
    simp [hready] at hstatus
  rw [hturn.status, Sim.turnedStatus, if_neg hnext, if_neg hcurrent, hready]

theorem Turn.ready_status {p : Fin n} (hready : p ∈ after.readyqueue) :
    (after.procs p).status = .ready := by
  rw [hturn.status, Sim.turnedStatus, if_neg (hturn.next_not_ready hqueued hshaped hready)]
  rcases mem_candidates.mp (hturn.ready_candidate hready) with
    hmem | ⟨hrunning, hage⟩
  · have hstatus := (hqueued.ready p hmem).1
    have hcurrent : s.current ≠ some p := by
      intro hcurrent
      have hother := current_status hqueued hshaped hcurrent
      simp [hstatus] at hother
    rw [if_neg hcurrent, hstatus]
  · have hcurrent := (running_eq_some.mp hrunning).1
    have hrun := status_of_running hqueued hshaped hrunning
    rw [if_pos hcurrent, Process.updatedStatus, if_neg hage.ne, if_pos hrun]

theorem Turn.wait_status {p : Fin n} {r : Fin NR_RESOURCES}
    (hwait : p ∈ (s.resources r).waitqueue) : (after.procs p).status = .wait := by
  have hstatus := (hqueued.wait r p hwait).1
  have hnext : next ≠ some p := by
    intro hnext
    rcases candidate_status hqueued hshaped (hturn.next_candidate hnext) with
      ⟨-, hready⟩ | ⟨-, hrun⟩
    · simp [hstatus] at hready
    · simp [hstatus] at hrun
  rw [hturn.status, Sim.turnedStatus, if_neg hnext]
  by_cases hcurrent : s.current = some p
  · have hage : (s.procs p).age ≠ (s.procs p).lifespan := fun hage =>
      (hturn.retired p hcurrent hage).1 r hwait
    rw [if_pos hcurrent, Process.updatedStatus, if_neg hage, if_neg (by simp [hstatus]), hstatus]
  · rw [if_neg hcurrent, hstatus]

theorem Turn.queued : after.Queued := by
  constructor
  case forkNodup => rw [hturn.forkqueue]; exact hqueued.forkNodup
  case readyNodup => exact (hturn.nodup hqueued hshaped).of_append_right
  case waitNodup => intro r; rw [hturn.resources]; exact hqueued.waitNodup r
  case disjoint =>
    intro p hfork hready
    rw [hturn.forkqueue] at hfork
    rcases candidate_status hqueued hshaped (hturn.ready_candidate hready) with
      ⟨hmem, -⟩ | ⟨-, hrun⟩
    · exact hqueued.disjoint p hfork hmem
    · exact hqueued.not_linked hrun (.inl hfork)
  case fork =>
    intro p hfork
    rw [hturn.forkqueue] at hfork
    refine ⟨hturn.fork_status hqueued hshaped hfork, ?_⟩
    rw [hturn.frame]
    exact (hqueued.fork p hfork).2
  case ready =>
    intro p hready
    refine ⟨hturn.ready_status hqueued hshaped hready, ?_⟩
    rw [hturn.frame]
    exact candidate_age hqueued (hturn.ready_candidate hready)
  case wait =>
    intro r p hwait
    rw [hturn.resources] at hwait
    refine ⟨hturn.wait_status hqueued hshaped hwait, ?_⟩
    rw [hturn.frame]
    exact (hqueued.wait r p hwait).2

end Turn

/-! ## Acquiring -/

section Acquire

variable {s : Sim n} {p : Fin n} {rs : ResourceSchedule} {skipped todo : List ResourceSchedule}
  {prios : Fin n → Nat}

/-- The entry that the loop has reached is the request of the process. -/
theorem request_of_reached {process : Process}
    (hpending : process.resourcesToAcquire = skipped ++ rs :: todo)
    (hskipped : ∀ rs ∈ skipped, rs.atAge ≠ process.age) (hage : rs.atAge = process.age) :
    process.request = some rs.resourceId := by
  have hnone : skipped.find? (fun rs => decide (rs.atAge = process.age)) = none := by
    simpa using hskipped
  simp [Process.request, hpending, hnone, hage]

theorem request_of_passed {process : Process} (hpending : process.resourcesToAcquire = skipped)
    (hskipped : ∀ rs ∈ skipped, rs.atAge ≠ process.age) : process.request = none := by
  simpa [Process.request, hpending] using hskipped

theorem granted_queued (hqueued : s.Queued) (hruns : s.Runs p) (rs : ResourceSchedule)
    (pending : List ResourceSchedule) : (s.granted p prios rs pending).Queued := by
  refine hqueued.of_running hruns.2 rfl rfl (fun r => by simp) (fun q hq => ?_)
  rw [s.granted_of_ne p prios rs pending hq]

theorem granted_owned (howned : s.Owned) (hruns : s.Runs p)
    (hfree : (s.resources rs.resourceId).owner = none) (pending : List ResourceSchedule) :
    (s.granted p prios rs pending).Owned := by
  have hnot : ∀ q, rs.resourceId ∉ (s.procs q).held := by
    intro q hmem
    have howner := (howned.owner rs.resourceId q).mpr hmem
    rw [hfree] at howner
    cases howner
  have hself : ((s.granted p prios rs pending).procs p).held =
      (s.procs p).held ++ [rs.resourceId] := by simp [Process.held]
  have hother : ∀ q, q ≠ p → ((s.granted p prios rs pending).procs q).held =
      (s.procs q).held := by
    intro q hq
    rw [s.granted_of_ne p prios rs pending hq]
    rfl
  constructor
  case owner =>
    intro r q
    rw [s.granted_owner p prios rs pending]
    by_cases hr : r = rs.resourceId
    · subst hr
      by_cases hq : q = p
      · rw [hq, hself]
        simp
      · simp [hother q hq, hnot q, Ne.symm hq]
    · rw [if_neg hr, howned.owner r q]
      by_cases hq : q = p
      · rw [hq, hself]
        simp [hr]
      · rw [hother q hq]
  case nodup =>
    intro q
    by_cases hq : q = p
    · subst hq
      rw [hself, ← List.concat_eq_append]
      exact (howned.nodup q).concat (hnot q)
    · rw [hother q hq]
      exact howned.nodup q
  case exited =>
    intro q hexit
    by_cases hq : q = p
    · subst hq
      simp [hruns.2] at hexit
    · rw [s.granted_of_ne p prios rs pending hq] at hexit ⊢
      exact howned.exited q hexit

theorem blocked_queued (hqueued : s.Queued) (hruns : s.Runs p)
    (hage : (s.procs p).age ≤ (s.procs p).lifespan) {r : Fin NR_RESOURCES}
    (hrequest : (s.procs p).request = some r) : (s.blocked p prios r).Queued := by
  have hne : ∀ {q}, s.linked q → q ≠ p := fun hlinked heq =>
    hqueued.not_linked hruns.2 (heq ▸ hlinked)
  constructor
  case forkNodup => exact hqueued.forkNodup
  case readyNodup => exact hqueued.readyNodup
  case waitNodup =>
    intro r'
    rw [s.blocked_waitqueue p prios r]
    by_cases hr : r' = r
    · rw [if_pos hr, ← List.concat_eq_append]
      exact (hqueued.waitNodup r).concat fun hwait => hne (.inr (.inr ⟨r, hwait⟩)) rfl
    · rw [if_neg hr]
      exact hqueued.waitNodup r'
  case disjoint => exact hqueued.disjoint
  case fork =>
    intro q hfork
    rw [s.blocked_of_ne p prios r (hne (.inl hfork))]
    exact hqueued.fork q hfork
  case ready =>
    intro q hready
    rw [s.blocked_of_ne p prios r (hne (.inr (.inl hready)))]
    exact hqueued.ready q hready
  case wait =>
    intro r' q hwait
    rw [s.blocked_waitqueue p prios r] at hwait
    by_cases hq : q = p
    · subst hq
      have hr : r' = r := by
        by_contra hr
        rw [if_neg hr] at hwait
        exact hne (.inr (.inr ⟨r', hwait⟩)) rfl
      rw [s.blocked_self q prios r, hr]
      exact ⟨rfl, hage, hrequest⟩
    · rw [s.blocked_of_ne p prios r hq]
      refine hqueued.wait r' q ?_
      by_cases hr : r' = r
      · rw [if_pos hr] at hwait
        simpa [hr, hq] using hwait
      · rwa [if_neg hr] at hwait

theorem blocked_owned (howned : s.Owned) (r : Fin NR_RESOURCES) :
    (s.blocked p prios r).Owned := by
  have hsame : ∀ q, ((s.blocked p prios r).procs q).resourcesHolding =
      (s.procs q).resourcesHolding := fun q => by rw [s.blocked_frame p prios r]
  refine howned.congr (by simp) (fun q => by rw [Process.held, hsame]; rfl) ?_
  intro q hexit
  rw [hsame]
  by_cases hq : q = p
  · subst hq
    simp at hexit
  · rw [s.blocked_of_ne p prios r hq] at hexit
    exact howned.exited q hexit

theorem grow_queued (hqueued : s.Queued) (hruns : s.Runs p) : (s.grow p).Queued := by
  refine hqueued.of_running hruns.2 rfl rfl (fun r => rfl) (fun q hq => ?_)
  rw [s.grow_of_ne p hq]

theorem grow_owned (howned : s.Owned) : (s.grow p).Owned := by
  refine howned.congr (fun r => rfl) (fun q => by rw [s.grow_frame]; rfl) fun q hexit => ?_
  rw [s.grow_frame] at hexit ⊢
  exact howned.exited q hexit

end Acquire

/-! ## Releasing -/

section Release

variable {s : Sim n} {p : Fin n} {rs : ResourceSchedule} {kept todo : List ResourceSchedule}

theorem setHolding_queued (hqueued : s.Queued) (hruns : s.Runs p)
    (holding : List ResourceSchedule) : (s.setHolding p holding).Queued := by
  refine hqueued.of_running hruns.2 rfl rfl (fun r => rfl) (fun q hq => ?_)
  rw [s.setHolding_of_ne p holding hq]

theorem setHolding_owned (howned : s.Owned) (hruns : s.Runs p)
    {holding : List ResourceSchedule}
    (hsame : holding.map (fun rs => rs.resourceId) = (s.procs p).held) :
    (s.setHolding p holding).Owned := by
  refine howned.congr (fun r => rfl) (fun q => ?_) fun q hexit => ?_
  · by_cases hq : q = p
    · subst hq
      rw [s.setHolding_self q holding]
      exact hsame
    · rw [s.setHolding_of_ne p holding hq]
  · by_cases hq : q = p
    · subst hq
      simp [hruns.2] at hexit
    · rw [s.setHolding_of_ne p holding hq] at hexit ⊢
      exact howned.exited q hexit

theorem freed_queued (hqueued : s.Queued) (hruns : s.Runs p) (prios : Fin n → Nat)
    (r : Fin NR_RESOURCES) (holding : List ResourceSchedule) :
    (s.freed p prios r holding).Queued := by
  refine hqueued.of_running hruns.2 rfl rfl (fun r' => by simp) (fun q hq => ?_)
  rw [s.freed_of_ne p prios r holding hq]

theorem freed_owned (howned : s.Owned) (hruns : s.Runs p) (prios : Fin n → Nat)
    (hholding : (s.procs p).resourcesHolding = kept ++ rs :: todo) :
    (s.freed p prios rs.resourceId (kept ++ todo)).Owned := by
  have hheld : (s.procs p).held = kept.map (fun rs => rs.resourceId) ++
      rs.resourceId :: todo.map fun rs => rs.resourceId := by
    simp [Process.held, hholding]
  have hself : ((s.freed p prios rs.resourceId (kept ++ todo)).procs p).held =
      kept.map (fun rs => rs.resourceId) ++ todo.map fun rs => rs.resourceId := by
    rw [s.freed_self p prios rs.resourceId (kept ++ todo)]
    simp [Process.held]
  have hother : ∀ q, q ≠ p → ((s.freed p prios rs.resourceId (kept ++ todo)).procs q).held =
      (s.procs q).held := by
    intro q hq
    rw [s.freed_of_ne p prios rs.resourceId (kept ++ todo) hq]
    rfl
  have hnodup := howned.nodup p
  rw [hheld, List.nodup_middle, List.nodup_cons] at hnodup
  have howner : (s.resources rs.resourceId).owner = some p :=
    (howned.owner _ p).mpr (by simp [hheld])
  constructor
  case owner =>
    intro r q
    rw [s.freed_owner p prios rs.resourceId]
    by_cases hr : r = rs.resourceId
    · subst hr
      by_cases hq : q = p
      · rw [hq, hself]
        simpa using hnodup.1
      · have hnot : rs.resourceId ∉ (s.procs q).held := by
          intro hmem
          have hq' := (howned.owner _ q).mpr hmem
          rw [howner] at hq'
          exact hq (Option.some.inj hq').symm
        simpa [hother q hq] using hnot
    · rw [if_neg hr, howned.owner r q]
      by_cases hq : q = p
      · rw [hq, hself, hheld]
        simp [hr]
      · rw [hother q hq]
  case nodup =>
    intro q
    by_cases hq : q = p
    · rw [hq, hself]
      exact hnodup.2
    · rw [hother q hq]
      exact howned.nodup q
  case exited =>
    intro q hexit
    by_cases hq : q = p
    · subst hq
      simp [hruns.2] at hexit
    · rw [s.freed_of_ne p prios rs.resourceId (kept ++ todo) hq] at hexit ⊢
      exact howned.exited q hexit

theorem moveToReady_queued (hqueued : s.Queued) {waiter : Fin n} {r : Fin NR_RESOURCES}
    (hwait : waiter ∈ (s.resources r).waitqueue) : (s.moveToReady r waiter).Queued := by
  obtain ⟨hstatus, hage, hrequest⟩ := hqueued.wait r waiter hwait
  have hfork : ∀ q ∈ s.forkqueue, q ≠ waiter := by
    rintro q hq rfl
    have hready := (hqueued.fork q hq).1
    rw [hstatus] at hready
    cases hready
  have hready : ∀ q ∈ s.readyqueue, q ≠ waiter := by
    rintro q hq rfl
    have hready := (hqueued.ready q hq).1
    rw [hstatus] at hready
    cases hready
  constructor
  case forkNodup => exact hqueued.forkNodup
  case readyNodup =>
    rw [s.moveToReady_readyqueue, ← List.concat_eq_append]
    exact hqueued.readyNodup.concat fun hmem => hready waiter hmem rfl
  case waitNodup =>
    intro r'
    rw [s.moveToReady_waitqueue]
    by_cases hr : r' = r
    · rw [if_pos hr]
      exact (hqueued.waitNodup r).erase waiter
    · rw [if_neg hr]
      exact hqueued.waitNodup r'
  case disjoint =>
    intro q hq hmem
    rw [s.moveToReady_readyqueue] at hmem
    rcases List.mem_append.mp hmem with hmem | hmem
    · exact hqueued.disjoint q hq hmem
    · exact hfork q hq (List.mem_singleton.mp hmem)
  case fork =>
    intro q hq
    rw [s.moveToReady_of_ne waiter r (hfork q hq)]
    exact hqueued.fork q hq
  case ready =>
    intro q hq
    rw [s.moveToReady_readyqueue] at hq
    rcases List.mem_append.mp hq with hq | hq
    · rw [s.moveToReady_of_ne waiter r (hready q hq)]
      exact hqueued.ready q hq
    · rw [List.mem_singleton.mp hq, s.moveToReady_self]
      exact ⟨rfl, hage⟩
  case wait =>
    intro r' q hq
    rw [s.moveToReady_waitqueue] at hq
    have hmem : q ≠ waiter ∧ q ∈ (s.resources r').waitqueue := by
      by_cases hr : r' = r
      · rw [if_pos hr] at hq
        rw [hr]
        exact ((hqueued.waitNodup r).mem_erase_iff).mp hq
      · rw [if_neg hr] at hq
        refine ⟨?_, hq⟩
        rintro rfl
        have hother := (hqueued.wait r' q hq).2.2
        rw [hrequest] at hother
        exact hr (Option.some.inj hother).symm
    rw [s.moveToReady_of_ne waiter r hmem.1]
    exact hqueued.wait r' q hmem.2

theorem moveToReady_owned (howned : s.Owned) (r : Fin NR_RESOURCES) (waiter : Fin n) :
    (s.moveToReady r waiter).Owned := by
  have hsame : ∀ q, ((s.moveToReady r waiter).procs q).resourcesHolding =
      (s.procs q).resourcesHolding := fun q => by rw [s.moveToReady_frame waiter r]
  refine howned.congr (by simp) (fun q => by rw [Process.held, hsame]; rfl) ?_
  intro q hexit
  rw [hsame]
  by_cases hq : q = waiter
  · subst hq
    simp at hexit
  · rw [s.moveToReady_of_ne waiter r hq] at hexit
    exact howned.exited q hexit

end Release

/-! ## Every effect keeps the shape -/

theorem Sim.Runs.of_same {s after : Sim n} {p : Fin n} (hruns : s.Runs p)
    (hcurrent : after.current = s.current)
    (hstatus : (after.procs p).status = (s.procs p).status) : after.Runs p :=
  ⟨hcurrent.trans hruns.1, hstatus.trans hruns.2⟩

theorem Sim.Queued.tick {s : Sim n} (hqueued : s.Queued) : s.tick.Queued :=
  ⟨hqueued.forkNodup, hqueued.readyNodup, hqueued.waitNodup, hqueued.disjoint, hqueued.fork,
    hqueued.ready, hqueued.wait⟩

theorem Sim.Owned.tick {s : Sim n} (howned : s.Owned) : s.tick.Owned :=
  ⟨howned.owner, howned.nodup, howned.exited⟩

theorem Effect.wellFormed {c next : Config n} (hwf : c.WellFormed)
    (heffect : Effect policy c next) : next.WellFormed := by
  obtain ⟨hqueued, howned, hshaped⟩ := hwf
  cases heffect with
  | finish hturn =>
      have hforked := forkOnSchedule_queued hqueued
      exact ⟨hturn.queued hforked (forkOnSchedule_shaped hqueued hshaped),
        hturn.owned (forkOnSchedule_owned hqueued howned), trivial⟩
  | @idle s after hturn =>
      have hforked := forkOnSchedule_queued hqueued
      have hafter := hturn.queued hforked (forkOnSchedule_shaped hqueued hshaped)
      refine ⟨hafter.tick, (hturn.owned (forkOnSchedule_owned hqueued howned)).tick, ?_⟩
      intro p hcurrent
      have hnone : after.current = none := hturn.current
      exact absurd (hnone.symm.trans hcurrent) (by simp)
  | @dispatch s after p hturn =>
      have hforked := forkOnSchedule_queued hqueued
      have hafter := hturn.queued hforked (forkOnSchedule_shaped hqueued hshaped)
      refine ⟨hafter, hturn.owned (forkOnSchedule_owned hqueued howned), ?_, rfl, by simp, ?_⟩
      · exact ⟨hturn.current, by simp [hturn.status, Sim.turnedStatus]⟩
      · rw [hturn.frame]
        exact candidate_age hforked (hturn.next_candidate rfl)
  | refuse => exact ⟨hqueued, howned, trivial⟩
  | @skip s p skipped todo rs hage =>
      obtain ⟨hruns, hpending, hskipped, hyoung⟩ := hshaped
      refine ⟨hqueued, howned, hruns, by simpa using hpending, ?_, hyoung⟩
      intro other hother
      rcases List.mem_append.mp hother with hother | hother
      · exact hskipped other hother
      · rw [List.mem_singleton.mp hother]
        exact hage
  | grant hage hfree =>
      obtain ⟨hruns, hpending, hskipped, hyoung⟩ := hshaped
      exact ⟨granted_queued hqueued hruns _ _, granted_owned howned hruns hfree _,
        hruns.of_same rfl (by simp), by simp, by simpa using hskipped, by simpa using hyoung⟩
  | @block s p _ _ _ rs hage =>
      obtain ⟨hruns, hpending, hskipped, hyoung⟩ := hshaped
      have hrequest := request_of_reached hpending hskipped hage
      refine ⟨blocked_queued hqueued hruns hyoung hrequest, blocked_owned howned _, ?_⟩
      intro q hcurrent
      have hq : q = p := Option.some.inj (hcurrent.symm.trans hruns.1)
      exact .inr ⟨rs.resourceId, by simp [Sim.blocked_waitqueue, hq]⟩
  | grow =>
      obtain ⟨hruns, -, -, -⟩ := hshaped
      exact ⟨grow_queued hqueued hruns, grow_owned howned, hruns.of_same rfl (by simp), by simp⟩
  | @keep s p kept todo rs hduration =>
      obtain ⟨hruns, hholding⟩ := hshaped
      refine ⟨setHolding_queued hqueued hruns _, setHolding_owned howned hruns ?_,
        hruns.of_same rfl (by simp), by simp⟩
      rw [Process.held, hholding]
      simp [ResourceSchedule.countDown]
  | drop =>
      obtain ⟨hruns, hholding⟩ := hshaped
      exact ⟨freed_queued hqueued hruns _ _ _, freed_owned howned hruns _ hholding,
        hruns.of_same rfl (by simp), by simp⟩
  | @wake s p first waiter rest kept todo rs prios _ _ _ hqueue hmem =>
      obtain ⟨hruns, hholding⟩ := hshaped
      have hwait : waiter ∈ (s.resources rs.resourceId).waitqueue := hqueue ▸ hmem
      have hne : p ≠ waiter := by
        rintro rfl
        exact hqueued.not_linked hruns.2 (.inr (.inr ⟨_, hwait⟩))
      refine ⟨moveToReady_queued (freed_queued hqueued hruns _ _ _) (by simpa using hwait),
        moveToReady_owned (freed_owned howned hruns _ hholding) _ _, hruns.of_same rfl ?_, ?_⟩
      · rw [Sim.moveToReady_of_ne _ _ _ hne, Sim.freed_self]
      · rw [Sim.moveToReady_of_ne _ _ _ hne, Sim.freed_self]
  | tick =>
      obtain ⟨hruns, -⟩ := hshaped
      refine ⟨hqueued.tick, howned.tick, ?_⟩
      intro q hcurrent
      have hq := Option.some.inj (hcurrent.symm.trans hruns.1)
      exact .inl (hq ▸ hruns.2)
  | finished => exact ⟨hqueued, howned, hshaped⟩
  | failed => exact ⟨hqueued, howned, hshaped⟩

/-! ## Runs -/

theorem start_wellFormed (script : Script n) : script.start.WellFormed where
  queued := {
    forkNodup := List.nodup_finRange n
    readyNodup := List.nodup_nil
    waitNodup := fun _ => List.nodup_nil
    disjoint := by simp [Script.start, Script.load]
    fork := by simp [Script.start, Script.load, Description.process]
    ready := by simp [Script.start, Script.load]
    wait := by simp [Script.start, Script.load] }
  owned := {
    owner := by simp [Script.start, Script.load, Description.process, Process.held]
    nodup := by simp [Script.start, Script.load, Description.process, Process.held]
    exited := by simp [Script.start, Script.load, Description.process] }
  shaped := by simp [Script.start, Script.load, Pc.Shaped]

section Runs

variable {sched : Scheduler n} {script : Script n} {c : Config n} (hlaw : Lawful sched policy)

include hlaw

theorem reachable_wellFormed (hreach : (sched.machine script).Reachable c) : c.WellFormed := by
  refine hreach.invariant Config.WellFormed (start_wellFormed script) ?_
  rintro state - next - hwf rfl
  exact (step_effect hlaw hwf).wellFormed hwf

/-- The invariant rule for simulations: an invariant that every effect keeps holds in
every reachable state. -/
theorem reachable_invariant (Inv : Config n → Prop) (hinit : Inv script.start)
    (hstep : ∀ c next, (sched.machine script).Reachable c → c.WellFormed →
      Effect policy c next → Inv c → Inv next)
    (hreach : (sched.machine script).Reachable c) : Inv c := by
  refine hreach.invariant Inv hinit ?_
  rintro state - next hstate hinv rfl
  have hwf := reachable_wellFormed hlaw hstate
  exact hstep state _ hstate hwf (step_effect hlaw hwf) hinv

end Runs

/-- The queues of the simulation, one after the other. -/
def Sim.queues (s : Sim n) : List (Fin n) :=
  s.forkqueue ++ s.readyqueue ++
    (List.finRange NR_RESOURCES).flatMap fun r => (s.resources r).waitqueue

theorem Sim.Queued.queues_nodup {s : Sim n} (hqueued : s.Queued) : s.queues.Nodup := by
  have hwaits : ((List.finRange NR_RESOURCES).flatMap
      fun r => (s.resources r).waitqueue).Nodup := by
    refine List.nodup_flatMap.mpr ⟨fun r _ => hqueued.waitNodup r, ?_⟩
    refine (List.nodup_finRange NR_RESOURCES).imp fun {r r'} hne p hp hp' => hne ?_
    have hr := (hqueued.wait r p hp).2.2
    have hr' := (hqueued.wait r' p hp').2.2
    exact Option.some.inj (hr.symm.trans hr')
  refine List.Nodup.append (List.Nodup.append hqueued.forkNodup hqueued.readyNodup
    hqueued.disjoint) hwaits ?_
  intro p hlisted hp
  obtain ⟨r, -, hwait⟩ := List.mem_flatMap.mp hp
  have hwaiting := (hqueued.wait r p hwait).1
  have hready : (s.procs p).status = .ready := by
    rcases List.mem_append.mp hlisted with hfork | hready
    · exact (hqueued.fork p hfork).1
    · exact (hqueued.ready p hready).1
  rw [hready] at hwaiting
  cases hwaiting

theorem Sim.Queued.exited_not_linked {s : Sim n} (hqueued : s.Queued) {p : Fin n}
    (hexit : (s.procs p).status = .exit) : ¬ s.linked p := by
  rintro (hfork | hready | ⟨r, hwait⟩)
  · exact absurd (hqueued.fork p hfork).1 (by simp [hexit])
  · exact absurd (hqueued.ready p hready).1 (by simp [hexit])
  · exact absurd (hqueued.wait r p hwait).1 (by simp [hexit])

/-- **Queue integrity.** At the head of the main loop a process is on at most one
queue, the current one on none unless it waits; ready processes and waiting ones have
their status, and a waiting one requests the resource of its queue; an exited process
is on no queue and owns nothing. -/
theorem queue_integrity {sched : Scheduler n} (hsched : sched ∈ schedulers n)
    {script : Script n} {c : Config n} (hreach : (sched.machine script).Reachable c)
    (hpc : c.pc = .iterate) :
    c.sim.queues.Nodup ∧
    (∀ p, c.sim.current = some p → (c.sim.procs p).status ≠ .wait → ¬ c.sim.linked p) ∧
    (∀ p ∈ c.sim.readyqueue, (c.sim.procs p).status = .ready) ∧
    (∀ r, ∀ p ∈ (c.sim.resources r).waitqueue,
      (c.sim.procs p).status = .wait ∧ (c.sim.procs p).request = some r) ∧
    (∀ p, (c.sim.procs p).status = .exit →
      ¬ c.sim.linked p ∧ ∀ r, (c.sim.resources r).owner ≠ some p) := by
  obtain ⟨policy, hlaw⟩ := schedulers_lawful hsched
  obtain ⟨hqueued, howned, hshaped⟩ := reachable_wellFormed hlaw hreach
  rw [hpc] at hshaped
  refine ⟨hqueued.queues_nodup, ?_, ?_, ?_, ?_⟩
  · intro p hcurrent hstatus
    have hrunning := running_eq_some.mpr ⟨hcurrent, hstatus⟩
    exact hqueued.not_linked (status_of_running hqueued hshaped hrunning)
  · intro p hready
    exact (hqueued.ready p hready).1
  · intro r p hwait
    obtain ⟨hstatus, -, hrequest⟩ := hqueued.wait r p hwait
    exact ⟨hstatus, hrequest⟩
  · intro p hexit
    refine ⟨hqueued.exited_not_linked hexit, fun r howner => ?_⟩
    have hheld := (howned.owner r p).mp howner
    simp [Process.held, howned.exited p hexit] at hheld

/-- A process that holds two resources when a more important one requests the first. -/
def contended : Script 2 :=
  ![⟨1, 0, 4, 1, [⟨0, 0, 3⟩, ⟨1, 0, 2⟩]⟩,
    ⟨2, 1, 3, 10, [⟨0, 0, 1⟩]⟩]

/-- The second process of `contended` blocks in its first tick. -/
theorem queue_integrity_contended :
    let c := pipScheduler.next^[9] contended.start
    (c.sim.procs 1).status = .wait ∧ (c.sim.procs 1).request = some 0 := by
  intro c
  have hreach : (pipScheduler.machine contended).Reachable c := Machine.reachable_iterate _ _ 9
  exact (queue_integrity (by simp [schedulers]) hreach (by decide +kernel)).2.2.2.1 0 1
    (by decide +kernel)

end OperatingSystem.Sched
