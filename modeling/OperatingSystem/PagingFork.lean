import OperatingSystem.PagingSteps

/-!
# The two nested loops of the fork

`Forked` is the invariant of both loops of `switch_process`: the cells visited so
far are write protected in the parent, equal in the child, and counted.
-/

namespace OperatingSystem.Paging

set_option linter.unusedSectionVars false

variable {Count : Type} [AddCommGroupWithOne Count] [DecidableEq Count]

/-- The entry maps the frame. -/
def Pte.Maps (pte : Pte) (frame : Frame) : Prop := pte.valid = true ∧ pte.pfn = frame.val

instance (pte : Pte) (frame : Frame) : Decidable (pte.Maps frame) :=
  inferInstanceAs (Decidable (_ ∧ _))

/-- The entry as a number of mappings of the frame. -/
def Pte.mapping (pte : Pte) (frame : Frame) : Nat := if pte.Maps frame then 1 else 0

theorem mapping_of_maps {pte : Pte} {frame : Frame} (hmaps : pte.Maps frame) (other : Frame) :
    pte.mapping other = if frame = other then 1 else 0 := by
  unfold Pte.mapping Pte.Maps
  simp only [hmaps.1, hmaps.2, true_and, Fin.ext_iff]

theorem mapping_of_invalid {pte : Pte} (hinvalid : pte.valid = false) (frame : Frame) :
    pte.mapping frame = 0 := by
  unfold Pte.mapping Pte.Maps
  simp [hinvalid]

theorem zero_mapping (frame : Frame) : Pte.zero.mapping frame = 0 := mapping_of_invalid rfl frame

@[simp] theorem protect_valid (pte : Pte) : pte.protect.valid = pte.valid := rfl
@[simp] theorem protect_pfn (pte : Pte) : pte.protect.pfn = pte.pfn := rfl
@[simp] theorem protect_priv (pte : Pte) : pte.protect.priv = pte.priv := rfl
@[simp] theorem protect_writable (pte : Pte) : pte.protect.writable = false := rfl
@[simp] theorem protect_protect (pte : Pte) : pte.protect.protect = pte.protect := rfl

/-- The loop invariant: `visited` cells are done, and `total frame` new mappings of
each frame have been counted since `start`. -/
structure Forked (start : Vm Count) (visited : Fin NR_PTES_PER_PAGE → Fin NR_PTES_PER_PAGE → Prop)
    (total : Frame → Nat) (state : Vm Count × PageTable) : Prop where
  same : SameProcesses start state.1
  others : ∀ address, address ≠ start.current → state.1.procs address = start.procs address
  shape : ∀ i, ((state.1.procs start.current).pagetable i).isSome =
    ((start.procs start.current).pagetable i).isSome
  parent : ∀ i j, ((state.1.procs start.current).pagetable.pte i j).protect =
    ((start.procs start.current).pagetable.pte i j).protect
  cleared : ∀ i j, visited i j → (state.1.procs start.current).pagetable.pte i j =
    ((start.procs start.current).pagetable.pte i j).protect
  child : ∀ i j, visited i j → state.2.pte i j =
    ((start.procs start.current).pagetable.pte i j).protect
  counts : ∃ new, Counts start state.1 new ∧ (∀ event ∈ new, ∃ frame, event = .share frame) ∧
    ∀ frame, new.count (.share frame) = total frame

/-- The new mapping of one cell of the parent. -/
def cellCount (start : Vm Count) (i j : Fin NR_PTES_PER_PAGE) (frame : Frame) : Nat :=
  ((start.procs start.current).pagetable.pte i j).mapping frame

variable {start : Vm Count} {visited : Fin NR_PTES_PER_PAGE → Fin NR_PTES_PER_PAGE → Prop}
  {total : Frame → Nat} {state : Vm Count × PageTable}

/-- One turn of the inner loop before it counts. -/
theorem Forked.copyPte (hforked : Forked start visited total state) {i : Fin NR_PTES_PER_PAGE}
    (hparent : ((start.procs start.current).pagetable i).isSome) (hchild : (state.2 i).isSome)
    (j : Fin NR_PTES_PER_PAGE) {pte : Pte}
    (hpte : pte = ((start.procs start.current).pagetable.pte i j).protect) :
    Forked start (fun i' j' => visited i' j' ∨ (i' = i ∧ j' = j)) total
      (state.1.storePte start.current i j pte, state.2.store i j pte) := by
  have hstored : ∀ i' j', ((state.1.storePte start.current i j pte).procs
      start.current).pagetable.pte i' j' = if i' = i ∧ j' = j then pte
        else (state.1.procs start.current).pagetable.pte i' j' := by
    intro i' j'
    rw [← pte_store ((hforked.shape i).trans hparent)]
    simp [Vm.storePte, Vm.setTable]
  constructor
  case same =>
    refine ⟨hforked.same.current, hforked.same.processes, hforked.same.brk, hforked.same.ptbr,
      fun address => ?_⟩
    rw [← hforked.same.pid address]
    by_cases ha : address = start.current
    · subst ha; simp [Vm.storePte, Vm.setTable]
    · simp [Vm.storePte, Vm.setTable, ha]
  case others =>
    intro address ha
    rw [← hforked.others address ha]
    simp [Vm.storePte, Vm.setTable, ha]
  case shape =>
    intro i'
    exact (isSome_storePte state.1 start.current i j i' pte).trans (hforked.shape i')
  case parent =>
    intro i' j'
    rw [hstored]
    by_cases hcell : i' = i ∧ j' = j
    · rw [if_pos hcell, hcell.1, hcell.2, hpte, protect_protect]
    · rw [if_neg hcell, hforked.parent]
  case cleared =>
    intro i' j' hvisited
    rw [hstored]
    by_cases hcell : i' = i ∧ j' = j
    · rw [if_pos hcell, hcell.1, hcell.2, hpte]
    · rw [if_neg hcell]
      exact hforked.cleared i' j' (hvisited.resolve_right hcell)
  case child =>
    intro i' j' hvisited
    rw [pte_store hchild]
    by_cases hcell : i' = i ∧ j' = j
    · rw [if_pos hcell, hcell.1, hcell.2, hpte]
    · rw [if_neg hcell]
      exact hforked.child i' j' (hvisited.resolve_right hcell)
  case counts =>
    obtain ⟨new, hcounts, hnew⟩ := hforked.counts
    exact ⟨new, ⟨hcounts.mapcounts, hcounts.events⟩, hnew⟩

/-- Counting one new mapping. -/
theorem Forked.count (hforked : Forked start visited total state) (frame : Frame) :
    Forked start visited (fun other => total other + if frame = other then 1 else 0)
      (state.1.count (.share frame), state.2) where
  same := ⟨hforked.same.current, hforked.same.processes, hforked.same.brk, hforked.same.ptbr,
    hforked.same.pid⟩
  others := hforked.others
  shape := hforked.shape
  parent := hforked.parent
  cleared := hforked.cleared
  child := hforked.child
  counts := by
    obtain ⟨new, hcounts, hshares, htotal⟩ := hforked.counts
    refine ⟨new ++ [.share frame], ⟨?_, ?_⟩, ?_, ?_⟩
    · simp [Vm.count, hcounts.mapcounts]
    · simp [Vm.count, hcounts.events]
    · intro event hevent
      rcases List.mem_append.mp hevent with hold | hlast
      · exact hshares event hold
      · exact ⟨frame, List.mem_singleton.mp hlast⟩
    · intro other
      rw [List.count_append, htotal, List.count_singleton]
      simp

theorem Forked.congr (hforked : Forked start visited total state)
    {visited' : Fin NR_PTES_PER_PAGE → Fin NR_PTES_PER_PAGE → Prop} {total' : Frame → Nat}
    (hvisited : ∀ i j, visited' i j → visited i j) (htotal : ∀ frame, total frame = total' frame) :
    Forked start visited' total' state where
  same := hforked.same
  others := hforked.others
  shape := hforked.shape
  parent := hforked.parent
  cleared i j hcell := hforked.cleared i j (hvisited i j hcell)
  child i j hcell := hforked.child i j (hvisited i j hcell)
  counts := by
    obtain ⟨new, hcounts, hshares, hnew⟩ := hforked.counts
    exact ⟨new, hcounts, hshares, fun frame => (hnew frame).trans (htotal frame)⟩

/-- One turn of the inner loop. -/
theorem forkPte_step (hforked : Forked start visited total state) {i j : Fin NR_PTES_PER_PAGE}
    (hparent : ((start.procs start.current).pagetable i).isSome) (hchild : (state.2 i).isSome)
    (hpfn : ((start.procs start.current).pagetable.pte i j).pfn < NR_PAGEFRAMES) :
    ∃ next, forkPte i state j = .ok next ∧
      Forked start (fun i' j' => visited i' j' ∨ (i' = i ∧ j' = j))
        (fun frame => total frame + cellCount start i j frame) next ∧
      ∀ i', (next.2 i').isSome = (state.2 i').isSome := by
  have hcurrent := hforked.same.current
  have hpte := hforked.parent i j
  have hcopied := hforked.copyPte hparent hchild j hpte
  have hvalid := congrArg Pte.valid hpte
  have hframe := congrArg Pte.pfn hpte
  simp only [protect_valid, protect_pfn] at hvalid hframe
  by_cases hmapped : ((start.procs start.current).pagetable.pte i j).valid = true
  · refine ⟨_, ?_, (hcopied.count ⟨_, hpfn⟩).congr (fun _ _ h => h) fun frame => ?_,
      fun i' => isSome_store i'⟩
    · simp only [forkPte, hcurrent, protect_valid, hvalid, if_pos hmapped, protect_pfn, hframe,
        frameIndex_of_lt hpfn, ok_bind]
      rfl
    · have hmaps : ((start.procs start.current).pagetable.pte i j).Maps ⟨_, hpfn⟩ := ⟨hmapped, rfl⟩
      rw [cellCount, mapping_of_maps hmaps]
  · refine ⟨_, ?_, hcopied.congr (fun _ _ h => h) fun frame => ?_, fun i' => isSome_store i'⟩
    · simp only [forkPte, hcurrent, protect_valid, hvalid, if_neg hmapped]
      rfl
    · rw [cellCount, mapping_of_invalid (Bool.eq_false_iff.mpr hmapped)]
      rfl

/-- The inner loop over row `i`, which the parent has and the child has just been given. -/
theorem forkRow_loop (hforked : Forked start visited total state) {i : Fin NR_PTES_PER_PAGE}
    (hparent : ((start.procs start.current).pagetable i).isSome) (hchild : (state.2 i).isSome)
    (hpfn : ∀ j, ((start.procs start.current).pagetable.pte i j).pfn < NR_PAGEFRAMES) :
    ∃ final, (List.finRange NR_PTES_PER_PAGE).foldlM (forkPte i) state = .ok final ∧
      Forked start (fun i' j' => visited i' j' ∨ i' = i)
        (fun frame => total frame +
          ((List.finRange NR_PTES_PER_PAGE).map fun j => cellCount start i j frame).sum) final ∧
      ∀ i', (final.2 i').isSome = (state.2 i').isSome := by
  obtain ⟨final, hfinal, hinv, hrows⟩ : ∃ final,
      (List.finRange NR_PTES_PER_PAGE).foldlM (forkPte i) state = .ok final ∧
      Forked start (fun i' j' => visited i' j' ∨ (i' = i ∧ j' ∈ List.finRange NR_PTES_PER_PAGE))
        (fun frame => total frame +
          ((List.finRange NR_PTES_PER_PAGE).map fun j => cellCount start i j frame).sum) final ∧
      ∀ i', (final.2 i').isSome = (state.2 i').isSome := by
    refine foldlM_invariant (fun done now =>
      Forked start (fun i' j' => visited i' j' ∨ (i' = i ∧ j' ∈ done))
        (fun frame => total frame + (done.map fun j => cellCount start i j frame).sum) now ∧
      ∀ i', (now.2 i').isSome = (state.2 i').isSome) ?_ ?_
    · exact ⟨hforked.congr (fun i' j' h => h.resolve_right (by simp)) (by simp), fun _ => rfl⟩
    · rintro done j rest now - ⟨hnow, hrows⟩
      obtain ⟨next, hnext, hstep, hshape⟩ :=
        forkPte_step hnow hparent ((hrows i).trans hchild) (hpfn j)
      refine ⟨next, hnext, hstep.congr ?_ ?_, fun i' => (hshape i').trans (hrows i')⟩
      · rintro i' j' (hold | ⟨rfl, hmem⟩)
        · exact .inl (.inl hold)
        · rcases List.mem_append.mp hmem with hdone | hlast
          · exact .inl (.inr ⟨rfl, hdone⟩)
          · exact .inr ⟨rfl, List.mem_singleton.mp hlast⟩
      · intro frame; simp; omega
  refine ⟨final, hfinal, hinv.congr ?_ fun _ => rfl, hrows⟩
  rintro i' j' (hold | rfl)
  · exact .inl hold
  · exact .inr ⟨rfl, List.mem_finRange j'⟩

/-- One turn of the outer loop. -/
theorem forkDirectory_step (hforked : Forked start visited total state)
    {i : Fin NR_PTES_PER_PAGE} (hnew : ∀ j, ¬ visited i j) (hnone : state.2 i = none)
    (hpfn : ∀ j, ((start.procs start.current).pagetable.pte i j).pfn < NR_PAGEFRAMES) :
    ∃ next, forkDirectory .zeroed state i = .ok next ∧
      Forked start (fun i' j' => visited i' j' ∨ i' = i)
        (fun frame => total frame +
          ((List.finRange NR_PTES_PER_PAGE).map fun j => cellCount start i j frame).sum) next ∧
      ∀ i', i' ≠ i → (next.2 i').isSome = (state.2 i').isSome := by
  have hshape := hforked.shape i
  unfold forkDirectory
  rw [hforked.same.current]
  cases hdir : (state.1.procs start.current).pagetable i with
  | none =>
      rw [hdir] at hshape
      have horig : (start.procs start.current).pagetable i = none :=
        Option.not_isSome_iff_eq_none.mp (by rw [← hshape]; simp)
      have hzero : ∀ j, (start.procs start.current).pagetable.pte i j = .zero := by
        intro j; simp [PageTable.pte, horig]
      refine ⟨state, rfl, { hforked with cleared := ?_, child := ?_, counts := ?_ },
        fun _ _ => rfl⟩
      · rintro i' j' (hold | rfl)
        · exact hforked.cleared i' j' hold
        · rw [hzero]; simp [PageTable.pte, hdir]; rfl
      · rintro i' j' (hold | rfl)
        · exact hforked.child i' j' hold
        · rw [hzero]; simp [PageTable.pte, hnone]; rfl
      · obtain ⟨new, hcounts, hshares, htotal⟩ := hforked.counts
        refine ⟨new, hcounts, hshares, fun frame => ?_⟩
        simp [htotal, cellCount, hzero, zero_mapping]
  | some directory =>
      rw [hdir] at hshape
      have hfresh : Forked start visited total
          (state.1, Function.update state.2 i (some Malloc.zeroed.directory)) := by
        refine { hforked with child := fun i' j' hold => ?_ }
        have hne : i' ≠ i := fun heq => hnew j' (heq ▸ hold)
        rw [← hforked.child i' j' hold]
        simp [PageTable.pte, hne]
      obtain ⟨final, hfinal, hinv, hrows⟩ :=
        forkRow_loop hfresh (by rw [← hshape]; rfl) (by simp) hpfn
      refine ⟨final, hfinal, hinv, fun i' hne => ?_⟩
      rw [hrows]
      simp [hne]

/-- Both loops: the whole table is protected, copied and counted. -/
theorem fork_loops (start : Vm Count)
    (hpfn : ∀ i j, ((start.procs start.current).pagetable.pte i j).pfn < NR_PAGEFRAMES) :
    ∃ final, (List.finRange NR_PTES_PER_PAGE).foldlM (forkDirectory .zeroed)
        (start, Malloc.zeroed.pagetable) = .ok final ∧
      Forked start (fun _ _ => True)
        (fun frame => (Finset.univ.filter fun vpn : Vpn =>
          ((start.procs start.current).pagetable.pte vpn.divNat vpn.modNat).Maps frame).card)
        final := by
  obtain ⟨final, hfinal, hinv, -⟩ : ∃ final,
      (List.finRange NR_PTES_PER_PAGE).foldlM (forkDirectory .zeroed)
        (start, Malloc.zeroed.pagetable) = .ok final ∧
      Forked start (fun i _ => i ∈ List.finRange NR_PTES_PER_PAGE)
        (fun frame => ((List.finRange NR_PTES_PER_PAGE).map fun i =>
          ((List.finRange NR_PTES_PER_PAGE).map fun j => cellCount start i j frame).sum).sum)
        final ∧
      ∀ i, i ∉ List.finRange NR_PTES_PER_PAGE → final.2 i = none := by
    refine foldlM_invariant (fun done now =>
      Forked start (fun i _ => i ∈ done)
        (fun frame => (done.map fun i =>
          ((List.finRange NR_PTES_PER_PAGE).map fun j => cellCount start i j frame).sum).sum) now ∧
      ∀ i, i ∉ done → now.2 i = none) ?_ ?_
    · refine ⟨⟨⟨rfl, rfl, rfl, rfl, fun _ => rfl⟩, fun _ _ => rfl, fun _ => rfl, fun _ _ => rfl,
        ?_, ?_, [], ⟨rfl, by simp⟩, by simp, by simp⟩, fun _ _ => rfl⟩
      · intro _ _ hmem; simp at hmem
      · intro _ _ hmem; simp at hmem
    · rintro done i rest now hsplit ⟨hnow, hmissing⟩
      have hnodup := List.nodup_finRange NR_PTES_PER_PAGE
      rw [hsplit] at hnodup
      have hi : i ∉ done := fun hmem =>
        (List.nodup_append.mp hnodup).2.2 i hmem i (by simp) rfl
      obtain ⟨next, hnext, hstep, hrows⟩ :=
        forkDirectory_step hnow (fun _ => hi) (hmissing i hi) (hpfn i)
      refine ⟨next, hnext, hstep.congr ?_ ?_, fun i' hi' => ?_⟩
      · intro i' _ hmem
        rcases List.mem_append.mp hmem with hdone | hlast
        · exact .inl hdone
        · exact .inr (List.mem_singleton.mp hlast)
      · intro frame; simp
      · have hne : i' ≠ i := fun heq => hi' (by simp [heq])
        have hdone : i' ∉ done := fun hmem => hi' (by simp [hmem])
        exact Option.not_isSome_iff_eq_none.mp (by rw [hrows i' hne, hmissing i' hdone]; simp)
  refine ⟨final, hfinal, hinv.congr (fun i _ _ => List.mem_finRange i) fun frame => ?_⟩
  exact (card_filter_rows fun i j =>
    ((start.procs start.current).pagetable.pte i j).Maps frame).symm

end OperatingSystem.Paging
