import OperatingSystem.PagingCounts
import Mathlib.Order.Bounds.Basic

/-!
# A full memory

What `alloc_page` and `handle_page_fault` do in any reachable state, with a free frame and
without one. With one, both take the smallest and change nothing they need not. Without one
the header comments ask for an error and an unchanged state. Neither function gives that:
`alloc_page` has marked the entry valid, and `handle_page_fault` writable, before the search.
The map counts may be wrong, and those of the machine may have wrapped around: a frame that
`alloc_page` has given away twice is counted once, and can be freed below zero.

The full states are built by running the simulator: 128 allocations, and a fork on top.
-/

namespace OperatingSystem.Paging

set_option linter.unusedSectionVars false

variable {Count : Type} [AddCommGroupWithOne Count] [DecidableEq Count]

/-- A frame with map count zero. -/
def Vm.Free (vm : Vm Count) (frame : Frame) : Prop := vm.mapcounts frame = 0

instance (vm : Vm Count) (frame : Frame) : Decidable (vm.Free frame) :=
  inferInstanceAs (Decidable (_ = _))

/-- The frame that a search for the smallest free one must return. -/
def Vm.SmallestFree (vm : Vm Count) (frame : Frame) : Prop := IsLeast {other | vm.Free other} frame

/-- What the walker reads in an entry: the frame number and the write permission. -/
def Pte.translation (pte : Pte) : Option (Nat × Bool) :=
  if pte.valid then some (pte.pfn, pte.writable) else none

/-- No translation of a live process and no map count differs. -/
structure Unchanged (vm next : Vm Count) : Prop where
  translation : ∀ address ∈ vm.live, ∀ vpn,
    (next.pte address vpn).translation = (vm.pte address vpn).translation
  mapcounts : next.mapcounts = vm.mapcounts

/-! ## The search for a frame -/

theorem freeFrame_smallest {vm : Vm Count} {frame : Frame} (hframe : vm.freeFrame = some frame) :
    vm.SmallestFree frame := by
  refine ⟨freeFrame_zero hframe, fun other hother => ?_⟩
  obtain ⟨-, i, hi, hget, hbefore⟩ := List.find?_eq_some_iff_getElem.mp hframe
  by_contra hle
  have hlt : other.val < frame.val := Fin.not_le.mp hle
  have hindex : i = frame.val := by
    have hval := congrArg Fin.val hget
    simpa using hval
  have hmiss := hbefore other.val (hindex ▸ hlt)
  simp only [List.getElem_finRange, Fin.cast_mk, Fin.eta] at hmiss
  have hzero : vm.mapcounts other = 0 := hother
  simp [hzero] at hmiss

theorem freeFrame_of_free {vm : Vm Count} (hfree : ∃ frame, vm.Free frame) :
    ∃ frame, vm.freeFrame = some frame := by
  obtain ⟨free, hzero⟩ := hfree
  cases hframe : vm.freeFrame with
  | some frame => exact ⟨frame, rfl⟩
  | none => exact absurd hzero (freeFrame_none hframe free)

theorem freeFrame_of_full {vm : Vm Count} (hfull : ¬ ∃ frame, vm.Free frame) :
    vm.freeFrame = none := by
  cases hframe : vm.freeFrame with
  | some frame => exact absurd ⟨frame, freeFrame_zero hframe⟩ hfull
  | none => rfl

/-! ## The specifications -/

/-- What the header comment of `alloc_page` promises for the page `vpn` and the flag `rw`. -/
structure AllocExact (vm : Vm Count) (vpn : Vpn) (rw : Nat) : Prop where
  found : (∃ frame, vm.Free frame) → ∃ frame next, vm.SmallestFree frame ∧
    allocPage .zeroed vm vpn rw = .ok (frame.val, next) ∧ SameProcesses vm next ∧
    (next.pte vm.current vpn).valid = true ∧ (next.pte vm.current vpn).pfn = frame.val ∧
    ((next.pte vm.current vpn).writable = true ↔ rw ≠ RW_READ) ∧
    (∀ address other, ¬ (address = vm.current ∧ other = vpn) →
      next.pte address other = vm.pte address other) ∧
    next.mapcounts = Function.update vm.mapcounts frame 1
  full : (¬ ∃ frame, vm.Free frame) → ∃ next,
    allocPage .zeroed vm vpn rw = .ok (UINT_MAX, next) ∧ Unchanged vm next ∧
    (rw ≠ 0 → __allocPage .zeroed vm vpn rw = .ok (false, next))

/-- What a write fault must do to the protected page `vpn`, which maps `frame`. The count is
compared as the machine's word. -/
structure FaultExact (vm : Vm Word) (vpn : Vpn) (frame : Frame) : Prop where
  found : 1 < vm.mapcounts frame → (∃ target, vm.Free target) → ∃ target next,
    vm.SmallestFree target ∧ handlePageFault vm vpn RW_WRITE = .ok (true, next) ∧
    Writes vm next vpn { vm.pte vm.current vpn with writable := true, pfn := target.val } ∧
    next.mapcounts =
      Function.update (Function.update vm.mapcounts frame (vm.mapcounts frame - 1)) target 1
  full : 1 < vm.mapcounts frame → (¬ ∃ target, vm.Free target) → ∃ next,
    handlePageFault vm vpn RW_WRITE = .ok (false, next) ∧ Unchanged vm next
  alone : vm.mapcounts frame = 1 → ∃ next,
    handlePageFault vm vpn RW_WRITE = .ok (true, next) ∧
    Writes vm next vpn { vm.pte vm.current vpn with writable := true } ∧
    next.mapcounts = vm.mapcounts

/-! ## With a free frame -/

section Reachable

variable {vm : Vm Count} (hwf : vm.WellFormed)
include hwf

theorem allocPage_found (vpn : Vpn) (rw : Nat) (hfree : ∃ frame, vm.Free frame) :
    AllocExact vm vpn rw := by
  refine ⟨fun _ => ?_, fun hfull => absurd hfree hfull⟩
  obtain ⟨frame, hframe⟩ := freeFrame_of_free hfree
  obtain ⟨next, halloc, hwrites, hcounts⟩ := allocPage_effect hwf rw vpn hframe
  have hself : next.pte vm.current vpn = granted rw frame.val := by
    rw [hwrites.pte, if_pos ⟨rfl, rfl⟩]
  refine ⟨frame, next, freeFrame_smallest hframe, halloc, hwrites.toSameProcesses, ?_, ?_, ?_,
    ?_, hcounts.mapcounts⟩
  · rw [hself]; rfl
  · rw [hself]; rfl
  · rw [hself]; simp [granted]
  · intro address other hcell
    rw [hwrites.pte, if_neg hcell]

end Reachable

/-- A count that is neither zero nor one is greater, also one that has wrapped around. -/
theorem Word.one_lt {count : Word} (hzero : count ≠ 0) (hone : count ≠ 1) : 1 < count := by
  bv_omega

section Fault

variable {vm : Vm Word} (hwf : vm.WellFormed)
include hwf

/-- A shared page moves to the smallest free frame; a page that is not shared stays. -/
theorem handlePageFault_found {vpn : Vpn} {frame : Frame}
    (hmaps : (vm.pte vm.current vpn).Maps frame) (hpriv : (vm.pte vm.current vpn).priv = 1)
    (hcase : vm.mapcounts frame = 1 ∨ ∃ target, vm.Free target) : FaultExact vm vpn frame := by
  refine ⟨fun hshared hfree => ?_, fun hshared hfull => ?_, fun halone => ?_⟩
  · obtain ⟨target, htarget⟩ := freeFrame_of_free hfree
    have hzero := freeFrame_zero htarget
    have hne : target ≠ frame := by
      rintro rfl
      rw [hzero] at hshared
      exact absurd hshared (by decide)
    have hmore : vm.mapcounts frame ≠ 1 := fun hone => absurd (hone ▸ hshared) (by decide)
    obtain ⟨next, hfault, hwrites, hcounts⟩ := handlePageFault_copy hwf RW_WRITE hmaps.1 hpriv
      hmaps.2.symm hmore htarget
    refine ⟨target, next, freeFrame_smallest htarget, hfault, hwrites, ?_⟩
    rw [hcounts.mapcounts]
    simp [MapEvent.apply, hne, hzero]
  · rcases hcase with halone | hfree
    · exact absurd (halone ▸ hshared) (by decide)
    · exact absurd hfree hfull
  · obtain ⟨next, hfault, hwrites, hcounts⟩ := handlePageFault_unshare hwf RW_WRITE hmaps.1 hpriv
      hmaps.2.symm (.inl halone)
    exact ⟨next, hfault, hwrites, hcounts.mapcounts⟩

end Fault

/-! ## Without one -/

/-- The frame number that was in the entry is returned, and the entry made valid. -/
theorem allocPage_not_exact {vm : Vm Count} (hwf : vm.WellFormed) {vpn : Vpn} (rw : Nat)
    (hfull : ¬ ∃ frame, vm.Free frame) :
    ¬ AllocExact vm vpn rw := by
  intro hexact
  obtain ⟨next, halloc, -⟩ := hexact.full hfull
  obtain ⟨next', halloc', -⟩ := allocPage_full hwf rw vpn (freeFrame_of_full hfull)
  rw [halloc] at halloc'
  have hpfn : UINT_MAX = (vm.pte vm.current vpn).pfn :=
    (Prod.mk.inj (Except.ok.inj halloc')).1
  have hlt := pfn_lt hwf vpn
  rw [← hpfn] at hlt
  exact absurd hlt (by decide)

/-- The fault is reported as handled. -/
theorem handlePageFault_not_exact {vm : Vm Word} (hwf : vm.WellFormed) {vpn : Vpn} {frame : Frame}
    (hmaps : (vm.pte vm.current vpn).Maps frame) (hpriv : (vm.pte vm.current vpn).priv = 1)
    (hshared : 1 < vm.mapcounts frame) (hfull : ¬ ∃ target, vm.Free target) :
    ¬ FaultExact vm vpn frame := by
  intro hexact
  obtain ⟨next, hfault, -⟩ := hexact.full hshared hfull
  obtain ⟨next', hfault', -⟩ := handlePageFault_unshare hwf RW_WRITE hmaps.1 hpriv
    hmaps.2.symm (.inr (freeFrame_of_full hfull))
  rw [hfault] at hfault'
  exact absurd (Prod.mk.inj (Except.ok.inj hfault')).1 (by decide)

/-! ## Filling the memory -/

/-- Allocate the pages `0`, ..., `count - 1`. -/
def fill (count : Nat) : List Command := (List.range count).map fun vpn => .alloc vpn RW_WRITE

def Vm.filled (count : Nat) : Vm Word := (fill count).foldl Vm.after .init

/-- `init` runs alone, and maps page `i` to frame `i` for every `i` below `count`. -/
structure Vm.Fills (vm : Vm Word) (count : Nat) : Prop where
  live : vm.current = 0 ∧ vm.processes = []
  pid : (vm.procs 0).pid = 0
  mapcounts : ∀ frame, vm.mapcounts frame = if frame.val < count then 1 else 0
  pte : ∀ vpn : Vpn,
    vm.pte 0 vpn = if vpn.val < count then granted RW_WRITE vpn.val else .zero

theorem init_fills : Vm.init.Fills 0 where
  live := ⟨rfl, rfl⟩
  pid := rfl
  mapcounts _ := rfl
  pte _ := rfl

/-- The smallest free frame has the number of the page that comes next. -/
theorem Vm.Fills.freeFrame {vm : Vm Word} {count : Nat} (hfills : vm.Fills count)
    (hlt : count < NR_PAGEFRAMES) : vm.freeFrame = some ⟨count, hlt⟩ := by
  have hnext : vm.Free ⟨count, hlt⟩ := by simp [Vm.Free, hfills.mapcounts]
  obtain ⟨frame, hframe⟩ := freeFrame_of_free ⟨_, hnext⟩
  obtain ⟨hzero, hleast⟩ := freeFrame_smallest hframe
  have hle : frame.val ≤ count := Fin.le_def.mp (hleast hnext)
  have hge : ¬ frame.val < count := by
    intro hused
    have hone := hfills.mapcounts frame
    rw [if_pos hused] at hone
    exact absurd (hone.symm.trans hzero) (by decide)
  rw [hframe]
  exact congrArg some (Fin.ext (Nat.le_antisymm hle (Nat.not_lt.mp hge)))

/-- `alloc` of an unmapped page while some frame is free. -/
theorem after_alloc {vm : Vm Word} (hwf : vm.WellFormed) {vpn : Vpn} {rw : Nat} (hrw : rw ≠ 0)
    {frame : Frame} (hinvalid : (vm.pte vm.current vpn).valid = false)
    (hframe : vm.freeFrame = some frame) :
    Writes vm (vm.after (.alloc vpn rw)) vpn (granted rw frame.val) ∧
      Counts vm (vm.after (.alloc vpn rw)) [.assign frame] := by
  obtain ⟨next, halloc, hwrites, hcounts⟩ := allocPage_effect hwf rw vpn hframe
  have hmiss : ¬ ((vm.pte vm.current vpn).valid = true ∧
      (RW_READ = RW_WRITE → (vm.pte vm.current vpn).writable = true)) := by
    simp [hinvalid]
  have hafter : vm.after (.alloc vpn rw) = next := by
    simp only [Vm.after, exec, execReply, allocReply, if_neg hrw, translate_eq hwf, if_neg hmiss,
      ok_bind, halloc]
    rfl
  rw [hafter]
  exact ⟨hwrites, hcounts⟩

theorem Vm.Fills.alloc {vm : Vm Word} {count : Nat} (hwf : vm.WellFormed) (hfills : vm.Fills count)
    (hlt : count < NR_PAGEFRAMES) :
    (vm.after (.alloc count RW_WRITE)).Fills (count + 1) := by
  let page : Vpn := ⟨count, hlt.trans (by decide)⟩
  have hcurrent : vm.current = 0 := hfills.live.1
  have hinvalid : (vm.pte vm.current page).valid = false := by
    rw [hcurrent, hfills.pte, if_neg (Nat.lt_irrefl count)]
    rfl
  obtain ⟨hwrites, hcounts⟩ :=
    after_alloc hwf (show RW_WRITE ≠ 0 by decide) hinvalid (hfills.freeFrame hlt)
  constructor
  case live =>
    exact ⟨hwrites.current.trans hcurrent, hwrites.processes.trans hfills.live.2⟩
  case pid => exact (hwrites.pid 0).trans hfills.pid
  case mapcounts =>
    intro frame
    rw [hcounts.mapcounts]
    by_cases heq : frame = ⟨count, hlt⟩
    · simp [MapEvent.apply, heq]
    · have hval : frame.val ≠ count := fun hval => heq (Fin.ext hval)
      have hiff : frame.val < count + 1 ↔ frame.val < count := by omega
      simp [MapEvent.apply, heq, hfills.mapcounts, hiff]
  case pte =>
    intro vpn
    rw [hwrites.pte, hcurrent]
    by_cases heq : vpn = page
    · subst heq
      simp [page]
    · have hval : vpn.val ≠ count := fun hval => heq (Fin.ext hval)
      have hiff : vpn.val < count + 1 ↔ vpn.val < count := by omega
      simp [heq, hfills.pte, hiff]

/-- The first allocations of a run fill the memory from below. -/
theorem filled_fills {count : Nat} (hle : count ≤ NR_PAGEFRAMES) :
    (machine always).Run (fill count) (Vm.filled count) ∧ (Vm.filled count).Fills count := by
  induction count with
  | zero => exact ⟨.nil, init_fills⟩
  | succ count ih =>
      obtain ⟨hrun, hfills⟩ := ih (Nat.le_of_succ_le hle)
      have hsnoc : fill (count + 1) = fill count ++ [.alloc count RW_WRITE] := by
        simp [fill, List.range_succ]
      have hstate : Vm.filled (count + 1) = (Vm.filled count).after (.alloc count RW_WRITE) := by
        rw [Vm.filled, hsnoc, List.foldl_append]
        rfl
      have hlt : count < NR_PTES_PER_PAGE * NR_PTES_PER_PAGE :=
        (Nat.lt_of_succ_le hle).trans_le (by decide)
      rw [hsnoc, hstate]
      exact ⟨after_run hrun ⟨hlt, by decide⟩ trivial,
        hfills.alloc (reachable_wellFormed hrun.reachable) (Nat.lt_of_succ_le hle)⟩

theorem full_filled : ¬ ∃ frame, (Vm.filled NR_PAGEFRAMES).Free frame := by
  rintro ⟨frame, hzero⟩
  have hone := (filled_fills le_rfl).2.mapcounts frame
  rw [if_pos frame.isLt] at hone
  exact absurd (hone.symm.trans hzero) (by decide)

/-- **`alloc_page` is exact as long as some frame is free**, and only then: in any reachable
state, for any page and flag, mapped or not. -/
theorem alloc_page_exact {vm : Vm Count} (hreach : (machine always).Reachable vm) (vpn : Vpn)
    (rw : Nat) : AllocExact vm vpn rw ↔ ∃ frame, vm.Free frame := by
  have hwf := reachable_wellFormed hreach
  constructor
  · intro hexact
    by_contra hfull
    exact allocPage_not_exact hwf rw hfull hexact
  · exact allocPage_found hwf vpn rw

/-- The child of a fork has freed a page that its parent keeps: it gets the third frame for it. -/
theorem alloc_page_exact_freed :
    let vm : Vm Word :=
      [.alloc 0 RW_WRITE, .alloc 1 RW_READ, .switch 1, .free 0].foldl Vm.after .init
    AllocExact vm 0 RW_READ ∧ vm.SmallestFree 2 := by
  intro vm
  have hadmits : (Vm.init : Vm Word).Admits always
      [.alloc 0 RW_WRITE, .alloc 1 RW_READ, .switch 1, .free 0] :=
    ⟨by decide, trivial, by decide, trivial, trivial, trivial, by decide, trivial, trivial⟩
  have hreach := (admits_run .nil hadmits).reachable
  have hframe : vm.freeFrame = some 2 := by decide +kernel
  exact ⟨(alloc_page_exact hreach 0 RW_READ).mpr ⟨2, freeFrame_zero hframe⟩,
    freeFrame_smallest hframe⟩

/-- The 129th page is reported as allocated, on frame 0. -/
theorem alloc_page_full :
    (machine always).Run (fill NR_PAGEFRAMES) (Vm.filled NR_PAGEFRAMES) ∧
    ((Vm.filled NR_PAGEFRAMES).pte (Vm.filled NR_PAGEFRAMES).current 128).valid = false ∧
    ¬ AllocExact (Vm.filled NR_PAGEFRAMES) 128 RW_WRITE ∧
    ∃ next, allocPage .zeroed (Vm.filled NR_PAGEFRAMES) 128 RW_WRITE = .ok (0, next) ∧
      (next.pte next.current 128).translation = some (0, true) := by
  obtain ⟨hrun, hfills⟩ := filled_fills (le_refl NR_PAGEFRAMES)
  have hwf := reachable_wellFormed hrun.reachable
  have hpte : (Vm.filled NR_PAGEFRAMES).pte (Vm.filled NR_PAGEFRAMES).current 128 = .zero := by
    rw [hfills.live.1, hfills.pte]
    exact if_neg (by decide)
  refine ⟨hrun, by rw [hpte]; rfl, allocPage_not_exact hwf RW_WRITE full_filled, ?_⟩
  obtain ⟨next, halloc, hwrites, -⟩ :=
    allocPage_full hwf RW_WRITE 128 (freeFrame_of_full full_filled)
  rw [hpte] at halloc hwrites
  exact ⟨next, halloc, by rw [hwrites.self]; rfl⟩

/-! ## A fork on top -/

theorem fork_of_fresh {vm : Vm Word} (hwf : vm.WellFormed) {pid : Nat}
    (hfresh : ∀ address ∈ vm.live, (vm.procs address).pid ≠ pid) :
    Forks vm (vm.after (.switch pid)) pid := by
  obtain ⟨ret, next, hexec, heffect⟩ := exec_switch hwf pid
  have hafter : vm.after (.switch pid) = next := by
    simp only [Vm.after, hexec]
  rw [hafter]
  exact heffect.forks hfresh

/-- In a filled memory every frame below the mark is mapped by one page. -/
theorem Vm.Fills.mappingsOf {vm : Vm Word} {count : Nat} (hfills : vm.Fills count)
    (hle : count ≤ NR_PAGEFRAMES) {frame : Frame} (hlt : frame.val < count) :
    vm.mappingsOf 0 frame = 1 := by
  let page : Vpn := ⟨frame.val, (hlt.trans_le hle).trans (by decide)⟩
  refine Finset.card_eq_one.mpr ⟨page, ?_⟩
  ext vpn
  simp only [Finset.mem_filter, Finset.mem_univ, true_and, Finset.mem_singleton, hfills.pte]
  by_cases hmapped : vpn.val < count
  · rw [if_pos hmapped]
    constructor
    · rintro ⟨-, hpfn⟩
      exact Fin.ext hpfn
    · rintro rfl
      exact ⟨rfl, rfl⟩
  · rw [if_neg hmapped]
    constructor
    · rintro ⟨hvalid, -⟩
      exact absurd hvalid (by decide)
    · rintro rfl
      exact absurd hlt hmapped

/-- The state after a process with a full memory has forked. -/
def Vm.forked : Vm Word := (Vm.filled NR_PAGEFRAMES).after (.switch 1)

/-- Every frame is mapped twice, and the child's pages are protected. -/
theorem forked_shared :
    (machine always).Run (fill NR_PAGEFRAMES ++ [.switch 1]) Vm.forked ∧
      (∀ vpn : Vpn, vpn.val < NR_PAGEFRAMES →
        Vm.forked.pte Vm.forked.current vpn = (granted RW_WRITE vpn.val).protect) ∧
      ∀ frame, Vm.forked.mapcounts frame = 2 := by
  obtain ⟨hrun, hfills⟩ := filled_fills (le_refl NR_PAGEFRAMES)
  have hwf := reachable_wellFormed hrun.reachable
  have hforks : Forks (Vm.filled NR_PAGEFRAMES) Vm.forked 1 := by
    apply fork_of_fresh hwf
    intro address haddress
    rw [Vm.live, hfills.live.1, hfills.live.2, List.mem_singleton] at haddress
    rw [haddress, hfills.pid]
    decide
  refine ⟨after_run hrun trivial trivial, ?_, ?_⟩
  · intro vpn hlt
    rw [hforks.current, hforks.child, hfills.live.1, hfills.pte, if_pos hlt]
  · intro frame
    obtain ⟨new, hcounts, hshares, htotal⟩ := hforks.counts
    rw [hcounts.mapcounts, foldl_shares hshares, htotal, hfills.live.1,
      hfills.mappingsOf le_rfl frame.isLt, hfills.mapcounts, if_pos frame.isLt]
    rfl

/-- **The copy-on-write fault is exact unless the page is shared and no frame is free.** -/
theorem cow_fault_exact {vm : Vm Word} (hreach : (machine always).Reachable vm) {vpn : Vpn}
    {frame : Frame} (hmaps : (vm.pte vm.current vpn).Maps frame)
    (hpriv : (vm.pte vm.current vpn).priv = 1) :
    FaultExact vm vpn frame ↔ vm.mapcounts frame = 1 ∨ ∃ target, vm.Free target := by
  have hwf := reachable_wellFormed hreach
  constructor
  · intro hexact
    by_contra hcase
    rw [not_or] at hcase
    have hzero : vm.mapcounts frame ≠ 0 := fun hfree => hcase.2 ⟨frame, hfree⟩
    exact handlePageFault_not_exact hwf hmaps hpriv (Word.one_lt hzero hcase.1) hcase.2 hexact
  · exact handlePageFault_found hwf hmaps hpriv

/-- A page shared after a fork, with all frames but one free. -/
theorem cow_fault_exact_fork :
    FaultExact ([.alloc 0 RW_WRITE, .switch 1].foldl Vm.after .init) 0 0 := by
  have hadmits : (Vm.init : Vm Word).Admits always [.alloc 0 RW_WRITE, .switch 1] :=
    ⟨by decide, trivial, trivial, trivial, trivial⟩
  have hreach := (admits_run .nil hadmits).reachable
  exact (cow_fault_exact hreach ⟨by decide +kernel, by decide +kernel⟩ (by decide +kernel)).mpr
    (.inr ⟨1, by decide +kernel⟩)

/-- The child of a full parent writes: the fault succeeds and the shared page is writable. -/
theorem cow_fault_full :
    (machine always).Run (fill NR_PAGEFRAMES ++ [.switch 1]) Vm.forked ∧
      (Vm.forked.pte Vm.forked.current 0).Maps 0 ∧
      (Vm.forked.pte Vm.forked.current 0).priv = 1 ∧
      (Vm.forked.pte Vm.forked.current 0).writable = false ∧ Vm.forked.mapcounts 0 = 2 ∧
      ¬ FaultExact Vm.forked 0 0 ∧
      ∃ next, handlePageFault Vm.forked 0 RW_WRITE = .ok (true, next) ∧
        (next.pte next.current 0).translation = some (0, true) := by
  obtain ⟨hrun, hpte, hcounts⟩ := forked_shared
  have hwf := reachable_wellFormed hrun.reachable
  have hself := hpte 0 (by decide)
  have hmaps : (Vm.forked.pte Vm.forked.current 0).Maps 0 := by
    rw [hself]
    exact ⟨rfl, rfl⟩
  have hpriv : (Vm.forked.pte Vm.forked.current 0).priv = 1 := by
    rw [hself]
    rfl
  have hshared : 1 < Vm.forked.mapcounts 0 := by
    rw [hcounts]
    decide
  have hfull : ¬ ∃ frame, Vm.forked.Free frame := by
    rintro ⟨frame, hzero⟩
    have htwo := hcounts frame
    rw [hzero] at htwo
    exact absurd htwo (by decide)
  refine ⟨hrun, hmaps, hpriv, by rw [hself]; rfl, hcounts 0,
    handlePageFault_not_exact hwf hmaps hpriv hshared hfull, ?_⟩
  obtain ⟨next, hfault, hwrites, -⟩ := handlePageFault_unshare hwf RW_WRITE hmaps.1 hpriv
    hmaps.2.symm (.inr (freeFrame_of_full hfull))
  exact ⟨next, hfault, by rw [hwrites.self, hself]; rfl⟩

end OperatingSystem.Paging
