import OperatingSystem.SchedMemorySafety
import OperatingSystem.SchedTermination

/-!
# Scripts without deadlocks

The resources may be given ranks such that no process requests a resource while it holds one of
the same or of a higher rank. When the simulation of such a script ends, nobody is left: whoever
was, would wait for someone who waits for a resource of a higher rank.
-/

namespace OperatingSystem.Sched

variable {n : Nat} {policy : Policy n}

/-- The second line, at place `j` of its process block, is reached after the first one. -/
def Behind (first : Acquire) (i : Nat) (second : Acquire) (j : Nat) : Prop :=
  first.atAge < second.atAge ∨ first.atAge = second.atAge ∧ i < j

/-- Each line that is reached before another one has ended is for a resource of a higher rank. -/
def Description.Orderly (rank : Fin NR_RESOURCES → Nat) (description : Description) : Prop :=
  ∀ first ∈ description.acquires.zipIdx, ∀ second ∈ description.acquires.zipIdx,
    Behind first.1 first.2 second.1 second.2 →
    (second.1.atAge : Int) < first.1.atAge + first.1.duration →
    rank first.1.resourceId < rank second.1.resourceId

instance (first : Acquire) (i : Nat) (second : Acquire) (j : Nat) :
    Decidable (Behind first i second j) := inferInstanceAs (Decidable (_ ∨ _))

instance (rank : Fin NR_RESOURCES → Nat) (description : Description) :
    Decidable (description.Orderly rank) := inferInstanceAs (Decidable (∀ _ ∈ _, ∀ _ ∈ _, _))

/-! ## The order of the lines -/

/-- The entries for the same age are granted in the order of their lines. -/
structure Process.Sequenced (process : Process) : Prop where
  pending : process.resourcesToAcquire.Pairwise fun first second => first.node < second.node
  passed : ∀ held ∈ process.resourcesHolding, ∀ rs ∈ process.resourcesToAcquire,
    held.atAge = rs.atAge → held.node < rs.node

theorem process_sequenced (description : Description) : description.process.Sequenced where
  pending := by
    rw [List.pairwise_iff_getElem]
    intro i j hi hj hij
    simpa [Description.process] using hij
  passed := by simp [Description.process]

theorem Config.Moves.sequenced {c : Config n} {q : Fin n} {process : Process}
    (hmoves : c.Moves q process) (hwf : c.WellFormed)
    (hsequenced : (c.sim.procs q).Sequenced) : process.Sequenced := by
  obtain ⟨hpending, hpassed⟩ := hsequenced
  cases hmoves with
  | stay hpending' hholding =>
      refine ⟨hpending' ▸ hpending, ?_⟩
      rw [hpending', hholding]
      exact hpassed
  | @grant skipped todo rs hpc hage hsplit hpending' hholding =>
      have hshaped := hwf.shaped
      rw [hpc] at hshaped
      have hskipped := hshaped.2.2.1
      rw [hsplit] at hpending hpassed
      have hsub : (skipped ++ todo).Sublist (skipped ++ rs :: todo) :=
        (List.sublist_cons_self rs todo).append_left skipped
      refine ⟨hpending' ▸ hpending.sublist hsub, ?_⟩
      rw [hpending', hholding]
      intro held hheld rs' hrs' hsame
      rcases List.mem_append.mp hheld with hheld | hheld
      · exact hpassed held hheld rs' (hsub.subset hrs') hsame
      · -- what has been skipped is for another age
        obtain rfl := List.mem_singleton.mp hheld
        rcases List.mem_append.mp hrs' with hrs' | hrs'
        · exact absurd (hsame.symm.trans hage) (hskipped rs' hrs')
        · have htail := (List.pairwise_append.mp hpending).2.1
          exact (List.pairwise_cons.mp htail).1 rs' hrs'
  | @keep kept todo rs hduration hsplit hpending' hholding =>
      refine ⟨hpending' ▸ hpending, ?_⟩
      rw [hpending', hholding]
      rw [hsplit] at hpassed
      intro held hheld rs' hrs' hsame
      simp only [List.mem_append, List.mem_cons] at hheld
      rcases hheld with hheld | rfl | hheld
      · exact hpassed held (by simp [hheld]) rs' hrs' hsame
      · exact hpassed rs (by simp) rs' hrs' hsame
      · exact hpassed held (by simp [hheld]) rs' hrs' hsame
  | @drop kept todo rs hduration hsplit hpending' hholding =>
      refine ⟨hpending' ▸ hpending, ?_⟩
      rw [hpending', hholding]
      rw [hsplit] at hpassed
      intro held hheld rs' hrs' hsame
      refine hpassed held ?_ rs' hrs' hsame
      rcases List.mem_append.mp hheld with hheld | hheld <;> simp [hheld]

section Runs

variable {sched : Scheduler n} {script : Script n} {c : Config n} (hlaw : Lawful sched policy)
include hlaw

theorem reachable_sequenced (hreach : (sched.machine script).Reachable c) (q : Fin n) :
    (c.sim.procs q).Sequenced := by
  refine reachable_invariant hlaw (fun c => (c.sim.procs q).Sequenced) ?_ ?_ hreach
  · exact process_sequenced (script q)
  · exact fun _ _ _ hwf heffect hsequenced => (heffect.moves hwf q).sequenced hwf hsequenced

/-! ## Waiting for a higher rank -/

/-- What a process requests has a higher rank than what it holds. -/
theorem held_lt_request (hregular : script.Regular) {rank : Fin NR_RESOURCES → Nat} {q : Fin n}
    (horderly : (script q).Orderly rank) (hreach : (sched.machine script).Reachable c)
    (hpc : c.pc = .finished) {r r' : Fin NR_RESOURCES} (hheld : r ∈ (c.sim.procs q).held)
    (hrequest : (c.sim.procs q).request = some r') : rank r < rank r' := by
  have htimed := reachable_timed hlaw hreach
  have hholding := htimed.holding
  rw [hpc] at hholding
  obtain ⟨held, hmem, rfl⟩ := List.mem_map.mp hheld
  obtain ⟨line, hline, hresource, hat, hduration, hage⟩ := hholding q held hmem
  have hpositive := (reachable_prompt hlaw hregular hreach).durations q held hmem
  obtain ⟨rs, hfind, rfl⟩ := Option.map_eq_some_iff.mp hrequest
  have hrs := List.mem_of_find?_eq_some hfind
  have hnow : rs.atAge = (c.sim.procs q).age := by simpa using List.find?_some hfind
  have hpending := (htimed.follows q).pending rs hrs
  rw [← hresource]
  refine horderly (line, held.node) (List.mem_zipIdx_iff_getElem?.mpr hline)
    (rs.toAcquire, rs.node) (List.mem_zipIdx_iff_getElem?.mpr hpending) ?_ ?_
  · rcases Nat.lt_or_ge line.atAge rs.atAge with hearlier | hlater
    · exact .inl hearlier
    · have hsame : held.atAge = rs.atAge := by omega
      exact .inr ⟨hat.trans hsame,
        (reachable_sequenced hlaw hreach q).passed held hmem rs hrs hsame⟩
  · show (rs.atAge : Int) < line.atAge + line.duration
    omega

/-- At the end of an orderly script all processes have exited. -/
theorem orderly_exits (hregular : script.Regular) {rank : Fin NR_RESOURCES → Nat}
    (horderly : ∀ p, (script p).Orderly rank) (hreach : (sched.machine script).Reachable c)
    (hpc : c.pc = .finished) (p : Fin n) : (c.sim.procs p).status = .exit := by
  by_contra hremains
  have hwf := reachable_wellFormed hlaw hreach
  -- the rank of what a process requests
  let height : Fin n → Nat := fun q => ((c.sim.procs q).request.map rank).getD 0
  have hwaits : ∀ q ∈ {q | (c.sim.procs q).status ≠ .exit},
      ∃ q' ∈ {q | (c.sim.procs q).status ≠ .exit}, height q < height q' := by
    intro q hq
    obtain ⟨q', hq', r, hwait, howner⟩ := stranded_waits hwf (reachable_handed hlaw hreach)
      (reachable_located hlaw hregular hreach) (reachable_stranded hlaw hreach) hpc hq
    obtain ⟨q'', -, r', hwait', -⟩ := stranded_waits hwf (reachable_handed hlaw hreach)
      (reachable_located hlaw hregular hreach) (reachable_stranded hlaw hreach) hpc hq'
    have hrequest := (hwf.queued.wait r q hwait).2.2
    have hrequest' := (hwf.queued.wait r' q' hwait').2.2
    have hlt := held_lt_request hlaw hregular (horderly q') hreach hpc
      ((hwf.owned.owner r q').mp howner) hrequest'
    exact ⟨q', hq', by simpa [height, hrequest, hrequest'] using hlt⟩
  obtain ⟨q, -, hcycle⟩ := exists_cycle (S := {q | (c.sim.procs q).status ≠ .exit}) hremains hwaits
  have hself : height q < height q := by
    have htrans : ∀ x y, Relation.TransGen (fun q q' => height q < height q') x y →
        height x < height y := by
      intro x y hxy
      induction hxy with
      | single hlt => exact hlt
      | tail _ hlt ih => exact ih.trans hlt
    exact htrans q q hcycle
  exact Nat.lt_irrefl _ hself

end Runs

namespace Pointers

variable (queues : Links (QueueNode n)) (entries : Links (EntryNode n))

theorem Config.Shows.finished_of_shown {c : Config n} {d : Sched.Config n} (hshows : c.Shows d)
    (hpc : d.pc = .finished) : c.pc = .finished := by
  obtain ⟨pc, m⟩ := c
  obtain ⟨pc', s⟩ := d
  obtain rfl : pc' = .finished := hpc
  cases pc with
  | finished => rfl
  | iterate | acquire | release | failed => exact hshows.elim

/-- **An orderly script frees everything.** Its simulation ends, and every process has been freed
with its entries. -/
theorem orderly_frees_all {code : Scheduler n} {sched : Sched.Scheduler n}
    (hsched : (code, sched) ∈ schedulers n) {script : Script n} (hregular : script.Regular)
    {rank : Fin NR_RESOURCES → Nat} (horderly : ∀ p, (script p).Orderly rank) :
    ∃ count, (code.next^[count] (start queues entries script)).pc = .finished ∧
      ∀ p, (code.next^[count] (start queues entries script)).memory.Freed p := by
  obtain ⟨policy, hlaw⟩ := schedulers_lawful (schedulers_implement hsched).2
  obtain ⟨count, hstopped⟩ := exists_stopped hlaw script
  have hreach : (sched.machine script).Reachable (sched.next^[count] script.start) :=
    Machine.reachable_iterate script.start sched.next count
  have hfinished : (sched.next^[count] script.start).pc = .finished := by
    rcases hstopped with hfinished | ⟨fault, hfailed⟩
    · exact hfinished
    · exact absurd hfailed (reachable_not_failed hlaw hregular hreach fault)
  have hshows := pointers_shows queues entries hsched script count
  have hpc := hshows.finished_of_shown hfinished
  exact ⟨count, hpc, fun p => exited_freed queues entries hsched hpc
    (orderly_exits hlaw hregular horderly hreach hfinished p)⟩

/-- Two processes that need the same two resources, in the same order. -/
def polite : Script 2 :=
  ![⟨1, 0, 4, 0, [⟨0, 0, 3⟩, ⟨1, 1, 1⟩]⟩, ⟨2, 1, 4, 0, [⟨0, 0, 2⟩, ⟨1, 0, 3⟩]⟩]

theorem orderly_frees_all_polite :
    ∃ count, (pipScheduler.next^[count] (start ⟨id, id⟩ ⟨id, id⟩ polite)).pc = .finished ∧
      ∀ p, (pipScheduler.next^[count] (start ⟨id, id⟩ ⟨id, id⟩ polite)).memory.Freed p := by
  have hsched : (pipScheduler, Sched.pipScheduler) ∈ schedulers 2 := by simp [schedulers]
  have hregular : polite.Regular := ⟨by decide, by decide, by decide⟩
  have horderly : ∀ p, (polite p).Orderly Fin.val := by decide
  exact orderly_frees_all ⟨id, id⟩ ⟨id, id⟩ hsched hregular horderly

end Pointers

end OperatingSystem.Sched
