import OperatingSystem.Paging
import OperatingSystem.Loops

/-!
# What one command does

The entries of a process are read through `Vm.pte`, which does not show whether a
page directory exists. Each function of the simulator gets one lemma in these
terms, and `exec_effect` collects them: on zeroed memory and a vpn in range a
command of a well-formed state succeeds, and its result is one of the cases of
`Effect`. Every invariant below is proved from those cases.
-/

namespace OperatingSystem.Paging

set_option linter.unusedSectionVars false

variable {Count : Type} [AddCommGroupWithOne Count] [DecidableEq Count]

/-- A virtual page number below `NR_PTES_PER_PAGE * NR_PTES_PER_PAGE`. -/
abbrev Vpn := Fin (NR_PTES_PER_PAGE * NR_PTES_PER_PAGE)

/-- The entry of `vpn` in the page table of the process at `address`. -/
def Vm.pte (vm : Vm Count) (address : Nat) (vpn : Vpn) : Pte :=
  (vm.procs address).pagetable.pte vpn.divNat vpn.modNat

/-- The current process and the listed ones. -/
def Vm.live (vm : Vm Count) : List Nat := vm.current :: vm.processes

theorem mem_live_current (vm : Vm Count) : vm.current ∈ vm.live := List.mem_cons_self

/-- The shape of every reachable state: the register points to the running process,
the processes are distinct allocated blocks, and frame numbers are in range. -/
structure Vm.WellFormed (vm : Vm Count) : Prop where
  ptbr : vm.ptbr = some vm.current
  nodup : vm.live.Nodup
  allocated : ∀ address ∈ vm.live, address < vm.brk
  pfn : ∀ address ∈ vm.live, ∀ vpn, (vm.pte address vpn).pfn < NR_PAGEFRAMES

/-- The fields that only a context switch changes. -/
structure SameProcesses (vm next : Vm Count) : Prop where
  current : next.current = vm.current
  processes : next.processes = vm.processes
  brk : next.brk = vm.brk
  ptbr : next.ptbr = vm.ptbr
  pid : ∀ address, (next.procs address).pid = (vm.procs address).pid

/-- `next` differs from `vm` in one entry of the current process, and in its counts. -/
structure Writes (vm next : Vm Count) (vpn : Vpn) (pte : Pte) : Prop
    extends SameProcesses vm next where
  pte : ∀ address other, next.pte address other =
    if address = vm.current ∧ other = vpn then pte else vm.pte address other

/-- `next` has counted the given events, and nothing else. -/
structure Counts (vm next : Vm Count) (new : List MapEvent) : Prop where
  mapcounts : next.mapcounts = new.foldl MapEvent.apply vm.mapcounts
  events : next.events = vm.events ++ new

/-! ## Entries and stores -/

theorem pte_store {table : PageTable} {i j : Fin NR_PTES_PER_PAGE}
    (hdirectory : (table i).isSome) (pte : Pte) (i' j' : Fin NR_PTES_PER_PAGE) :
    (table.store i j pte).pte i' j' = if i' = i ∧ j' = j then pte else table.pte i' j' := by
  obtain ⟨directory, hdir⟩ := Option.isSome_iff_exists.mp hdirectory
  by_cases hi : i' = i
  · subst hi
    by_cases hj : j' = j <;> simp [PageTable.store, PageTable.pte, hdir, hj]
  · simp [PageTable.store, PageTable.pte, hdir, hi]

theorem isSome_store {table : PageTable} {i j : Fin NR_PTES_PER_PAGE} {pte : Pte}
    (i' : Fin NR_PTES_PER_PAGE) : ((table.store i j pte) i').isSome = (table i').isSome := by
  unfold PageTable.store
  cases hdir : table i with
  | none => rfl
  | some directory =>
      by_cases hi : i' = i
      · subst hi; simp [hdir]
      · simp [hi]

/-- A zeroed directory in place of a missing one shows no new entry. -/
theorem pte_update_zeroed {table : PageTable} {i : Fin NR_PTES_PER_PAGE} (hmissing : table i = none)
    (i' j' : Fin NR_PTES_PER_PAGE) :
    PageTable.pte (Function.update table i (some Malloc.zeroed.directory)) i' j' =
      table.pte i' j' := by
  by_cases hi : i' = i
  · subst hi; simp [PageTable.pte, hmissing, Malloc.zeroed]
  · simp [PageTable.pte, hi]

theorem isSome_of_valid {vm : Vm Count} {address : Nat} {vpn : Vpn}
    (hvalid : (vm.pte address vpn).valid = true) :
    ∃ directory, (vm.procs address).pagetable vpn.divNat = some directory ∧
      directory (pteIndex vpn.val) = vm.pte address vpn := by
  unfold Vm.pte PageTable.pte at *
  cases hdir : (vm.procs address).pagetable vpn.divNat with
  | none => rw [hdir] at hvalid; simp [Pte.zero] at hvalid
  | some directory => exact ⟨directory, rfl, rfl⟩

@[simp] theorem storePte_current (vm : Vm Count) (address : Nat) (i j : Fin NR_PTES_PER_PAGE)
    (pte : Pte) : (vm.storePte address i j pte).current = vm.current := rfl

@[simp] theorem storePte_mapcounts (vm : Vm Count) (address : Nat) (i j : Fin NR_PTES_PER_PAGE)
    (pte : Pte) : (vm.storePte address i j pte).mapcounts = vm.mapcounts := rfl

@[simp] theorem storePte_events (vm : Vm Count) (address : Nat) (i j : Fin NR_PTES_PER_PAGE)
    (pte : Pte) : (vm.storePte address i j pte).events = vm.events := rfl

@[simp] theorem storePte_freeFrame (vm : Vm Count) (address : Nat) (i j : Fin NR_PTES_PER_PAGE)
    (pte : Pte) : (vm.storePte address i j pte).freeFrame = vm.freeFrame := rfl

@[simp] theorem isSome_storePte (vm : Vm Count) (address : Nat) (i j i' : Fin NR_PTES_PER_PAGE)
    (pte : Pte) : (((vm.storePte address i j pte).procs address).pagetable i').isSome =
      ((vm.procs address).pagetable i').isSome := by
  simp [Vm.storePte, Vm.setTable, isSome_store]

@[simp] theorem count_procs (vm : Vm Count) (event : MapEvent) :
    (vm.count event).procs = vm.procs := rfl

@[simp] theorem count_current (vm : Vm Count) (event : MapEvent) :
    (vm.count event).current = vm.current := rfl

/-- Two vpns with the same indices are equal. -/
theorem index_inj {vpn other : Vpn} :
    (other.divNat = vpn.divNat ∧ other.modNat = vpn.modNat) ↔ other = vpn := by
  constructor
  · rintro ⟨hdiv, hmod⟩
    exact finProdFinEquiv.symm.injective (Prod.ext hdiv hmod)
  · rintro rfl
    exact ⟨rfl, rfl⟩

@[simp] theorem slot_vpn (vpn : Vpn) : slot (vpn.val / NR_PTES_PER_PAGE) = .ok vpn.divNat := by
  have hlt : vpn.val / NR_PTES_PER_PAGE < NR_PTES_PER_PAGE :=
    (Nat.div_lt_iff_lt_mul (by decide)).mpr vpn.isLt
  rw [slot, dif_pos hlt]
  rfl

theorem frameIndex_of_lt {pfn : Nat} (hlt : pfn < NR_PAGEFRAMES) :
    frameIndex pfn = .ok ⟨pfn, hlt⟩ := dif_pos hlt

/-- A new table for the current process that differs from the old one at `vpn` only. -/
theorem writes_setTable {vm : Vm Count} {table : PageTable} {vpn : Vpn} {pte : Pte}
    (htable : ∀ i j, table.pte i j =
      if i = vpn.divNat ∧ j = vpn.modNat then pte
      else (vm.procs vm.current).pagetable.pte i j) :
    Writes vm (vm.setTable vm.current table) vpn pte := by
  refine ⟨⟨rfl, rfl, rfl, rfl, fun address => ?_⟩, fun address other => ?_⟩
  · by_cases ha : address = vm.current
    · subst ha; simp [Vm.setTable]
    · simp [Vm.setTable, ha]
  · unfold Vm.pte
    by_cases ha : address = vm.current
    · subst ha
      simp only [Vm.setTable, Function.update_self, htable, index_inj, true_and]
    · simp [Vm.setTable, ha]

theorem writes_storePte (vm : Vm Count) (vpn : Vpn)
    (hdirectory : ((vm.procs vm.current).pagetable vpn.divNat).isSome) (pte : Pte) :
    Writes vm (vm.storePte vm.current vpn.divNat vpn.modNat pte) vpn pte :=
  writes_setTable fun i j => pte_store hdirectory pte i j

/-- Two stores to one entry are the last of them. -/
theorem Writes.trans {vm mid next : Vm Count} {vpn : Vpn} {first last : Pte}
    (hfirst : Writes vm mid vpn first) (hlast : Writes mid next vpn last) :
    Writes vm next vpn last where
  current := hlast.current.trans hfirst.current
  processes := hlast.processes.trans hfirst.processes
  brk := hlast.brk.trans hfirst.brk
  ptbr := hlast.ptbr.trans hfirst.ptbr
  pid address := (hlast.pid address).trans (hfirst.pid address)
  pte address other := by
    rw [hlast.pte, hfirst.pte, hfirst.current]
    by_cases hcell : address = vm.current ∧ other = vpn
    · rw [if_pos hcell, if_pos hcell]
    · rw [if_neg hcell, if_neg hcell, if_neg hcell]

theorem Writes.refl (vm : Vm Count) (vpn : Vpn) : Writes vm vm vpn (vm.pte vm.current vpn) := by
  refine ⟨⟨rfl, rfl, rfl, rfl, fun _ => rfl⟩, fun address other => ?_⟩
  by_cases hcell : address = vm.current ∧ other = vpn
  · rw [if_pos hcell, hcell.1, hcell.2]
  · rw [if_neg hcell]

/-- Counting touches no page table. -/
theorem Writes.count_before {vm next : Vm Count} {vpn : Vpn} {pte : Pte} {event : MapEvent}
    (hwrites : Writes (vm.count event) next vpn pte) : Writes vm next vpn pte :=
  ⟨⟨hwrites.current, hwrites.processes, hwrites.brk, hwrites.ptbr, hwrites.pid⟩, hwrites.pte⟩

theorem Writes.count_after {vm next : Vm Count} {vpn : Vpn} {pte : Pte} (event : MapEvent)
    (hwrites : Writes vm next vpn pte) : Writes vm (next.count event) vpn pte :=
  ⟨⟨hwrites.current, hwrites.processes, hwrites.brk, hwrites.ptbr, hwrites.pid⟩, hwrites.pte⟩

/-! ## Translation, free and fault -/

section Current

variable {vm : Vm Count} (hwf : vm.WellFormed)
include hwf

/-- What `__translate` returns, and when. -/
theorem translate_eq (rw : Nat) (vpn : Vpn) :
    __translate vm rw vpn = .ok
      (if (vm.pte vm.current vpn).valid = true ∧
          (rw = RW_WRITE → (vm.pte vm.current vpn).writable = true)
        then some (vm.pte vm.current vpn).pfn else none) := by
  simp only [__translate, hwf.ptbr, slot_vpn, ok_bind]
  cases hdir : (vm.procs vm.current).pagetable vpn.divNat with
  | none => simp [Vm.pte, PageTable.pte, hdir, Pte.zero, pure, Except.pure]
  | some directory =>
      have hpte : directory (pteIndex vpn.val) = vm.pte vm.current vpn := by
        simp [Vm.pte, PageTable.pte, hdir]; rfl
      simp only [hpte]
      cases (vm.pte vm.current vpn).valid <;> cases (vm.pte vm.current vpn).writable <;>
        simp [pure, Except.pure]
      exact (apply_ite _ _ _ _).symm

theorem pfn_lt (vpn : Vpn) : (vm.pte vm.current vpn).pfn < NR_PAGEFRAMES :=
  hwf.pfn vm.current (by simp [Vm.live]) vpn

/-- A freed page goes back to zero, and its frame loses a mapping. -/
theorem freePage_effect {vpn : Vpn} (hvalid : (vm.pte vm.current vpn).valid = true) :
    ∃ (next : Vm Count) (frame : Frame), freePage vm vpn = .ok next ∧
      frame.val = (vm.pte vm.current vpn).pfn ∧
      Writes vm next vpn .zero ∧ Counts vm next [.drop frame] := by
  obtain ⟨directory, hdir, hpte⟩ := isSome_of_valid hvalid
  have hlt := pfn_lt hwf vpn
  refine ⟨(vm.count (.drop ⟨_, hlt⟩)).storePte vm.current vpn.divNat vpn.modNat .zero,
    ⟨_, hlt⟩, ?_, rfl, ?_, ⟨rfl, rfl⟩⟩
  · simp only [freePage, Vm.table, hwf.ptbr, ok_bind, slot_vpn, hdir, hpte, frameIndex_of_lt hlt]
    rfl
  · exact (writes_storePte (vm.count (.drop ⟨_, hlt⟩)) vpn (by simp [hdir]) .zero).count_before

/-- A fault on an unmapped page, or a write fault on a read-only one, is refused. -/
theorem handlePageFault_refused {rw : Nat} {vpn : Vpn}
    (hrefused : (vm.pte vm.current vpn).valid = false ∨
      ((vm.pte vm.current vpn).priv ≠ 1 ∧ rw = RW_WRITE)) :
    handlePageFault vm vpn rw = .ok (false, vm) := by
  simp only [handlePageFault, Vm.table, hwf.ptbr, ok_bind, slot_vpn]
  cases hdir : (vm.procs vm.current).pagetable vpn.divNat with
  | none => rfl
  | some directory =>
      have hpte : directory (pteIndex vpn.val) = vm.pte vm.current vpn := by
        simp [Vm.pte, PageTable.pte, hdir]; rfl
      simp only [hpte]
      rcases hrefused with hinvalid | ⟨hpriv, hwrite⟩
      · rw [if_pos hinvalid]; rfl
      · rw [if_neg hpriv, if_pos hwrite]
        split <;> rfl

/-- A fault on a shared read-only page that does not write. -/
theorem handlePageFault_readable {rw : Nat} {vpn : Vpn}
    (hvalid : (vm.pte vm.current vpn).valid = true) (hpriv : (vm.pte vm.current vpn).priv ≠ 1)
    (hread : rw ≠ RW_WRITE) : handlePageFault vm vpn rw = .ok (true, vm) := by
  obtain ⟨directory, hdir, hpte⟩ := isSome_of_valid hvalid
  have hmapped : ¬ (vm.pte vm.current vpn).valid = false := by simp [hvalid]
  simp only [handlePageFault, Vm.table, hwf.ptbr, ok_bind, slot_vpn, hdir, hpte, if_neg hmapped,
    if_neg hpriv, if_neg hread]
  rfl

/-- A fault on a private page that needs no copy, or finds no frame for one. -/
theorem handlePageFault_unshare (rw : Nat) {vpn : Vpn} {frame : Frame}
    (hvalid : (vm.pte vm.current vpn).valid = true) (hpriv : (vm.pte vm.current vpn).priv = 1)
    (hframe : frame.val = (vm.pte vm.current vpn).pfn)
    (halone : vm.mapcounts frame = 1 ∨ vm.freeFrame = none) :
    ∃ next, handlePageFault vm vpn rw = .ok (true, next) ∧
      Writes vm next vpn { vm.pte vm.current vpn with writable := true } ∧ Counts vm next [] := by
  obtain ⟨directory, hdir, hpte⟩ := isSome_of_valid hvalid
  have hlt := pfn_lt hwf vpn
  have hindex : (⟨_, hlt⟩ : Frame) = frame := Fin.ext hframe.symm
  refine ⟨vm.storePte vm.current vpn.divNat vpn.modNat
    { vm.pte vm.current vpn with writable := true }, ?_,
    writes_storePte vm vpn (by simp [hdir]) _, ⟨rfl, by simp⟩⟩
  have hmapped : ¬ (vm.pte vm.current vpn).valid = false := by simp [hvalid]
  simp only [handlePageFault, Vm.table, hwf.ptbr, ok_bind, slot_vpn, hdir, hpte, if_neg hmapped,
    if_pos hpriv, frameIndex_of_lt hlt, hindex, storePte_mapcounts, storePte_freeFrame]
  rcases halone with hone | hfull
  · rw [if_neg (not_not.mpr hone)]
    rfl
  · simp only [hfull]
    split <;> rfl

/-- A fault on a shared private page moves it to the first free frame. -/
theorem handlePageFault_copy (rw : Nat) {vpn : Vpn} {frame target : Frame}
    (hvalid : (vm.pte vm.current vpn).valid = true) (hpriv : (vm.pte vm.current vpn).priv = 1)
    (hframe : frame.val = (vm.pte vm.current vpn).pfn)
    (hshared : vm.mapcounts frame ≠ 1) (htarget : vm.freeFrame = some target) :
    ∃ next, handlePageFault vm vpn rw = .ok (true, next) ∧
      Writes vm next vpn { vm.pte vm.current vpn with writable := true, pfn := target.val } ∧
      Counts vm next [.drop frame, .copy target] := by
  obtain ⟨directory, hdir, hpte⟩ := isSome_of_valid hvalid
  have hlt := pfn_lt hwf vpn
  have hindex : (⟨_, hlt⟩ : Frame) = frame := Fin.ext hframe.symm
  let opened := vm.storePte vm.current vpn.divNat vpn.modNat
    { vm.pte vm.current vpn with writable := true }
  have hopened : Writes vm opened vpn { vm.pte vm.current vpn with writable := true } :=
    writes_storePte vm vpn (by simp [hdir]) _
  have hmoved := writes_storePte (opened.count (.drop frame)) vpn
    (by simp [opened, hdir]) { vm.pte vm.current vpn with writable := true, pfn := target.val }
  refine ⟨_, ?_, (hopened.trans hmoved.count_before).count_after (.copy target), ⟨rfl, ?_⟩⟩
  · have hmapped : ¬ (vm.pte vm.current vpn).valid = false := by simp [hvalid]
    simp only [handlePageFault, Vm.table, hwf.ptbr, ok_bind, slot_vpn, hdir, hpte, if_neg hmapped,
      if_pos hpriv, frameIndex_of_lt hlt, hindex, storePte_mapcounts, storePte_freeFrame,
      if_pos hshared, htarget]
    rfl
  · simp [Vm.count, opened]

/-- The loop of `__access_memory` on a page that translates at once. -/
theorem accessMemory_hit {rw : Nat} {vpn : Vpn}
    (hflags : (rw &&& RW_READ) ^^^ (rw &&& RW_WRITE) ≠ 0)
    (hvalid : (vm.pte vm.current vpn).valid = true)
    (hwritable : rw = RW_WRITE → (vm.pte vm.current vpn).writable = true) :
    __accessMemory vm vpn rw = .ok (true, vm) := by
  rw [__accessMemory, accessReply, if_neg hflags, if_neg (not_not.mpr vpn.isLt), accessLoop,
    translate_eq hwf, if_pos ⟨hvalid, hwritable⟩]
  rfl

theorem accessMemory_refused {rw : Nat} {vpn : Vpn}
    (hflags : (rw &&& RW_READ) ^^^ (rw &&& RW_WRITE) ≠ 0)
    (hrefused : (vm.pte vm.current vpn).valid = false ∨
      ((vm.pte vm.current vpn).priv ≠ 1 ∧ rw = RW_WRITE ∧
        (vm.pte vm.current vpn).writable = false)) :
    __accessMemory vm vpn rw = .ok (false, vm) := by
  have hmiss : ¬ ((vm.pte vm.current vpn).valid = true ∧
      (rw = RW_WRITE → (vm.pte vm.current vpn).writable = true)) := by
    rintro ⟨hvalid, hwritable⟩
    rcases hrefused with hinvalid | ⟨-, hwrite, hprotected⟩
    · simp [hinvalid] at hvalid
    · simp [hprotected] at hwritable; exact hwritable hwrite
  rw [__accessMemory, accessReply, if_neg hflags, if_neg (not_not.mpr vpn.isLt), accessLoop,
    translate_eq hwf, if_neg hmiss, ok_bind,
    handlePageFault_refused hwf (hrefused.imp_right fun h => ⟨h.1, h.2.1⟩)]
  rfl

end Current

/-- A write that faults and whose fault is handled: the retry succeeds as soon as the
handler left the page valid and writable. -/
theorem accessMemory_fault {vm next : Vm Count} (hwf : vm.WellFormed) (hnext : next.WellFormed)
    {vpn : Vpn} (hmiss : (vm.pte vm.current vpn).writable = false)
    (hfault : handlePageFault vm vpn RW_WRITE = .ok (true, next))
    (hvalid : (next.pte next.current vpn).valid = true)
    (hwritable : (next.pte next.current vpn).writable = true) :
    __accessMemory vm vpn RW_WRITE = .ok (true, next) := by
  have hmiss' : ¬ ((vm.pte vm.current vpn).valid = true ∧
      (RW_WRITE = RW_WRITE → (vm.pte vm.current vpn).writable = true)) := by
    simp [hmiss]
  rw [__accessMemory, accessReply, if_neg (by decide), if_neg (not_not.mpr vpn.isLt), accessLoop,
    translate_eq hwf, if_neg hmiss', ok_bind, hfault, ok_bind]
  simp only [if_true]
  rw [accessLoop, translate_eq hnext, if_pos ⟨hvalid, fun _ => hwritable⟩]
  rfl

/-! ## Allocation -/

/-- The entry that `alloc_page` writes for the flag `rw`. -/
def granted (rw pfn : Nat) : Pte where
  valid := true
  writable := decide (rw ≠ RW_READ)
  pfn := pfn
  priv := if rw = RW_READ then 0 else 1

@[simp] theorem grant_pfn (pte : Pte) (rw pfn : Nat) :
    { pte.grant rw with pfn := pfn } = granted rw pfn := by
  unfold Pte.grant granted
  by_cases hread : rw = RW_READ <;> simp [hread]

theorem setTable_self (vm : Vm Count) (address : Nat) :
    vm.setTable address (vm.procs address).pagetable = vm := by
  simp [Vm.setTable]

/-- A zeroed directory in place of a missing one changes no entry. -/
theorem mallocDirectory_writes (vm : Vm Count) (vpn : Vpn) :
    Writes vm (vm.mallocDirectory .zeroed vm.current vpn.divNat) vpn (vm.pte vm.current vpn) ∧
      Counts vm (vm.mallocDirectory .zeroed vm.current vpn.divNat) [] ∧
      (((vm.mallocDirectory .zeroed vm.current vpn.divNat).procs vm.current).pagetable
        vpn.divNat).isSome := by
  unfold Vm.mallocDirectory
  by_cases hmissing : ((vm.procs vm.current).pagetable vpn.divNat).isNone = true
  · rw [if_pos hmissing]
    have hnone := Option.isNone_iff_eq_none.mp hmissing
    refine ⟨writes_setTable fun i j => ?_, ⟨rfl, by simp [Vm.setTable]⟩, by simp [Vm.setTable]⟩
    rw [pte_update_zeroed hnone]
    by_cases hcell : i = vpn.divNat ∧ j = vpn.modNat
    · rw [if_pos hcell, hcell.1, hcell.2]; rfl
    · rw [if_neg hcell]
  · rw [if_neg hmissing]
    exact ⟨.refl vm vpn, ⟨rfl, by simp⟩, by simpa [Option.isSome_iff_ne_none] using hmissing⟩

theorem Writes.self {vm next : Vm Count} {vpn : Vpn} {pte : Pte}
    (hwrites : Writes vm next vpn pte) : next.pte next.current vpn = pte := by
  rw [hwrites.pte, hwrites.current, if_pos ⟨rfl, rfl⟩]

/-- Storing the granted entry into the table that `mallocDirectory` prepared. -/
theorem storeGranted_writes {vm start : Vm Count} (rw pfn : Nat) (vpn : Vpn)
    (hstart : Writes vm start vpn (vm.pte vm.current vpn))
    (hdirectory : ((start.procs start.current).pagetable vpn.divNat).isSome) :
    Writes vm (start.storePte start.current vpn.divNat vpn.modNat (granted rw pfn)) vpn
      (granted rw pfn) :=
  hstart.trans (writes_storePte start vpn hdirectory _)

section Alloc

variable {vm : Vm Count} (hwf : vm.WellFormed) (rw : Nat) (vpn : Vpn)
include hwf

/-- `alloc_page` while some frame is free. -/
theorem allocPage_effect {frame : Frame} (hframe : vm.freeFrame = some frame) :
    ∃ next, allocPage .zeroed vm vpn rw = .ok (frame.val, next) ∧
      Writes vm next vpn (granted rw frame.val) ∧ Counts vm next [.assign frame] := by
  obtain ⟨hopened, hcounts, hdirectory⟩ := mallocDirectory_writes vm vpn
  generalize hmalloc : vm.mallocDirectory .zeroed vm.current vpn.divNat = opened at *
  have hfree : opened.freeFrame = some frame := by
    rw [← hframe, Vm.freeFrame, Vm.freeFrame, hcounts.mapcounts]; rfl
  have hwrites := (storeGranted_writes rw frame.val vpn (hopened.count_after (.assign frame))
    (by rw [count_procs, count_current, hopened.current]; exact hdirectory))
  refine ⟨_, ?_, hwrites, ?_, ?_⟩
  · have hread := congrArg Pte.pfn hwrites.self
    simp only [allocPage, Vm.table, hwf.ptbr, ok_bind, slot_vpn, hmalloc, if_pos vpn.isLt, hfree,
      grant_pfn, storePte_current, count_current, hopened.current, setTable_self] at hread ⊢
    refine congrArg (fun pfn => Except.ok (pfn, _)) hread
  · simp [Vm.count, hcounts.mapcounts]
  · simp [Vm.count, hcounts.events]

/-- `alloc_page` when memory is full: the frame number that was there becomes valid. -/
theorem allocPage_full (hfull : vm.freeFrame = none) :
    ∃ next, allocPage .zeroed vm vpn rw = .ok ((vm.pte vm.current vpn).pfn, next) ∧
      Writes vm next vpn (granted rw (vm.pte vm.current vpn).pfn) ∧ Counts vm next [] := by
  obtain ⟨hopened, hcounts, hdirectory⟩ := mallocDirectory_writes vm vpn
  generalize hmalloc : vm.mallocDirectory .zeroed vm.current vpn.divNat = opened at *
  have hfree : opened.freeFrame = none := by
    rw [← hfull, Vm.freeFrame, Vm.freeFrame, hcounts.mapcounts]; rfl
  have hwrites := storeGranted_writes rw (vm.pte vm.current vpn).pfn vpn hopened
    (by rw [hopened.current]; exact hdirectory)
  have hpte : (opened.procs vm.current).pagetable.pte vpn.divNat (pteIndex vpn.val) =
      vm.pte vm.current vpn := by
    have hself := hopened.self
    rwa [hopened.current] at hself
  have hgrant : (vm.pte vm.current vpn).grant rw = granted rw (vm.pte vm.current vpn).pfn := by
    rw [← grant_pfn (vm.pte vm.current vpn)]
    unfold Pte.grant
    split <;> rfl
  refine ⟨_, ?_, hwrites, ?_, ?_⟩
  · have hread := congrArg Pte.pfn hwrites.self
    simp only [allocPage, Vm.table, hwf.ptbr, ok_bind, slot_vpn, hmalloc, if_pos vpn.isLt, hfree,
      hpte, hgrant, storePte_current, hopened.current, setTable_self] at hread ⊢
    refine congrArg (fun pfn => Except.ok (pfn, _)) hread
  · simp [hcounts.mapcounts]
  · simp [hcounts.events]

end Alloc

end OperatingSystem.Paging
