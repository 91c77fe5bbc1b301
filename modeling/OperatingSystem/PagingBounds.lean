import OperatingSystem.PagingProcesses

/-!
# Pages out of range

`__translate`, `free_page` and `alloc_page` divide the vpn into an index of the outer table and
one of a directory, and only `alloc_page` compares it with the size of the table, after it has
used the index. So a vpn is safe exactly if it is in range.
-/

namespace OperatingSystem.Paging

set_option linter.style.nameCheck false

/-- The entry of a vpn in range names a frame that does not exist; `malloc` may leave such
an entry. -/
def Vm.Strays (vm : Vm Word) (vpn : Nat) : Prop :=
  ∃ address i, vm.ptbr = some address ∧ slot (vpn / NR_PTES_PER_PAGE) = .ok i ∧
    NR_PAGEFRAMES ≤ ((vm.procs address).pagetable.pte i (pteIndex vpn)).pfn

/-- The functions index no page table or directory out of its bounds (what is left is the index
of `mapcounts` in `free_page`), and the commands refuse a vpn out of range. -/
structure BoundsSafe (vm : Vm Word) (vpn : Nat) : Prop where
  translates : ∀ rw, __translate vm rw vpn ≠ .error .outOfBounds
  allocates : ∀ fresh rw, allocPage fresh vm vpn rw ≠ .error .outOfBounds
  frees : freePage vm vpn = .error .outOfBounds → vm.Strays vpn
  allocCommand : ∀ fresh rw, __allocPage fresh vm vpn rw ≠ .error .outOfBounds
  freeCommand : __freePage vm vpn = .error .outOfBounds → vm.Strays vpn
  refuses : NR_PTES_PER_PAGE * NR_PTES_PER_PAGE ≤ vpn → ∀ fresh rw, rw ≠ 0 →
    (∃ next, allocPage fresh vm vpn rw = .ok (UINT_MAX, next) ∧
      next.procs = vm.procs ∧ next.mapcounts = vm.mapcounts) ∧
    (∃ next, __allocPage fresh vm vpn rw = .ok (false, next) ∧
      next.procs = vm.procs ∧ next.mapcounts = vm.mapcounts) ∧
    __freePage vm vpn = .ok (false, vm)

section Bounds

variable {vm : Vm Word} (hptbr : vm.ptbr = some vm.current)

include hptbr

/-- A vpn out of range is an index out of the outer table. -/
theorem translate_out_of_bounds (rw : Nat) {vpn : Nat}
    (hvpn : NR_PTES_PER_PAGE * NR_PTES_PER_PAGE ≤ vpn) :
    __translate vm rw vpn = .error .outOfBounds := by
  have hindex : ¬ vpn / NR_PTES_PER_PAGE < NR_PTES_PER_PAGE :=
    (Nat.div_lt_iff_lt_mul (by decide)).not.mpr (not_lt.mpr hvpn)
  simp only [__translate, hptbr, slot, dif_neg hindex]
  rfl

theorem translate_ok (rw : Nat) (vpn : Vpn) :
    ∃ translation, __translate vm rw vpn = .ok translation := by
  simp only [__translate, hptbr, slot_vpn, ok_bind]
  split
  · exact ⟨_, rfl⟩
  · split_ifs <;> exact ⟨_, rfl⟩

theorem allocPage_ok (fresh : Malloc) (vpn : Vpn) (rw : Nat) :
    ∃ result, allocPage fresh vm vpn rw = .ok result := by
  simp only [allocPage, Vm.table, hptbr, slot_vpn, ok_bind, if_pos vpn.isLt]
  exact ⟨_, rfl⟩

theorem freePage_strays {vpn : Vpn} (hfree : freePage vm vpn = .error .outOfBounds) :
    vm.Strays vpn := by
  refine ⟨vm.current, vpn.divNat, hptbr, slot_vpn vpn, ?_⟩
  by_contra hpfn
  simp only [freePage, Vm.table, hptbr, slot_vpn, ok_bind] at hfree
  cases hdir : (vm.procs vm.current).pagetable vpn.divNat with
  | none =>
      simp only [hdir] at hfree
      cases hfree
  | some directory =>
      have hpte : (vm.procs vm.current).pagetable.pte vpn.divNat (pteIndex vpn) =
          directory (pteIndex vpn) := by
        simp only [PageTable.pte, hdir]
      rw [hpte, not_le] at hpfn
      simp only [hdir, frameIndex_of_lt hpfn, ok_bind] at hfree
      cases hfree

/-- A vpn in range is safe. -/
theorem boundsSafe_of_lt (vpn : Vpn) : BoundsSafe vm vpn where
  translates := fun rw htranslate => by
    obtain ⟨translation, hok⟩ := translate_ok hptbr rw vpn
    rw [hok] at htranslate
    cases htranslate
  allocates := fun fresh rw halloc => by
    obtain ⟨result, hok⟩ := allocPage_ok hptbr fresh vpn rw
    rw [hok] at halloc
    cases halloc
  frees := freePage_strays hptbr
  allocCommand := fun fresh rw halloc => by
    obtain ⟨translation, htranslate⟩ := translate_ok hptbr RW_READ vpn
    obtain ⟨result, hok⟩ := allocPage_ok hptbr fresh vpn rw
    simp only [__allocPage, map_eq_error, allocReply, htranslate, hok, ok_bind] at halloc
    split at halloc
    · cases halloc
    · split at halloc <;> cases halloc
  freeCommand := fun hfree => by
    obtain ⟨translation, htranslate⟩ := translate_ok hptbr RW_READ vpn
    simp only [__freePage, map_eq_error, freeReply, htranslate, ok_bind] at hfree
    cases translation with
    | none => cases hfree
    | some pfn =>
        apply freePage_strays hptbr
        cases hpage : freePage vm vpn with
        | error fault =>
            simp only [hpage] at hfree
            cases hfree
            rfl
        | ok next =>
            simp only [hpage] at hfree
            cases hfree
  refuses := fun hvpn => absurd vpn.isLt (not_lt.mpr hvpn)

end Bounds

/-- **Bounds safety.** In every reachable state, whatever `malloc` has left in its blocks, a vpn
is safe if and only if it is in range. -/
theorem bounds_safe_iff {vm : Vm Word} (hreach : simulator.Reachable vm) (vpn : Nat) :
    BoundsSafe vm vpn ↔ vpn < NR_PTES_PER_PAGE * NR_PTES_PER_PAGE := by
  obtain ⟨labels, hrun⟩ := hreach
  have hptbr := (run_populated hrun).1.ptbr
  constructor
  · intro hsafe
    by_contra hvpn
    exact hsafe.translates RW_READ (translate_out_of_bounds hptbr RW_READ (not_lt.mp hvpn))
  · exact fun hvpn => boundsSafe_of_lt hptbr ⟨vpn, hvpn⟩

/-- In memory that was zeroed no entry names a frame that does not exist. -/
theorem not_strays {vm : Vm Word} (hwf : vm.WellFormed) (vpn : Vpn) : ¬ vm.Strays vpn := by
  rintro ⟨address, i, hptbr, hslot, hpfn⟩
  rw [hwf.ptbr] at hptbr
  rw [slot_vpn] at hslot
  cases hptbr
  cases hslot
  exact absurd (pfn_lt hwf vpn) (not_lt.mpr hpfn)

/-- The child of a fork has freed one of the two pages that it shared. -/
theorem bounds_safe_freed :
    let vm : Vm Word :=
      [.alloc 0 RW_WRITE, .alloc 1 RW_READ, .switch 1, .free 0].foldl Vm.after .init
    vm.pids = [1, 0] ∧ BoundsSafe vm 255 := by
  intro vm
  have hadmits : (Vm.init : Vm Word).Admits always
      [.alloc 0 RW_WRITE, .alloc 1 RW_READ, .switch 1, .free 0] :=
    ⟨by decide, trivial, by decide, trivial, trivial, trivial, by decide, trivial, trivial⟩
  obtain ⟨labels, hrun⟩ := exists_simulator_run (admits_run .nil hadmits).reachable
  exact ⟨by decide +kernel, (bounds_safe_iff hrun.reachable 255).mpr (by decide)⟩

/-- `alloc 300 r` and `free 300` read `outer_ptes[18]`. -/
theorem alloc_out_of_range : simulator.Reachable .init ∧ ¬ BoundsSafe .init 300 ∧
    __allocPage .zeroed (.init : Vm Word) 300 RW_READ = .error .outOfBounds ∧
    __freePage (.init : Vm Word) 300 = .error .outOfBounds :=
  ⟨Machine.reachable_init,
    fun hsafe => hsafe.translates RW_READ (translate_out_of_bounds rfl RW_READ (by decide)),
    rfl, rfl⟩

end OperatingSystem.Paging
