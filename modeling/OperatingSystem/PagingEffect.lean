import OperatingSystem.PagingFork
import OperatingSystem.Machine

/-!
# The effect of a command

`Effect` lists what a command can do to a well-formed state, one constructor for
each way through the functions it calls. `exec_effect` proves that the list is
complete on zeroed memory, and `Effect.wellFormed` that every case keeps the shape
of the state. The machines of the development run commands under a guard, which
says which commands a theorem about runs admits.
-/

namespace OperatingSystem.Paging

set_option linter.unusedSectionVars false

variable {Count : Type} [AddCommGroupWithOne Count] [DecidableEq Count]

/-- The number of entries of one process that map `frame`. -/
def Vm.mappingsOf (vm : Vm Count) (address : Nat) (frame : Frame) : Nat :=
  (Finset.univ.filter fun vpn : Vpn => (vm.pte address vpn).Maps frame).card

/-- The fork of `pid` from the current process. -/
structure Forks (vm next : Vm Count) (pid : Nat) : Prop where
  fresh : ∀ address ∈ vm.live, (vm.procs address).pid ≠ pid
  current : next.current = vm.brk
  processes : next.processes = vm.processes ++ [vm.current]
  brk : next.brk = vm.brk + 1
  ptbr : next.ptbr = some vm.brk
  pid : (next.procs vm.brk).pid = pid
  pids : ∀ address ∈ vm.live, (next.procs address).pid = (vm.procs address).pid
  child : ∀ vpn, next.pte vm.brk vpn = (vm.pte vm.current vpn).protect
  parent : ∀ vpn, next.pte vm.current vpn = (vm.pte vm.current vpn).protect
  others : ∀ address ∈ vm.processes, ∀ vpn, next.pte address vpn = vm.pte address vpn
  counts : ∃ new, Counts vm next new ∧ (∀ event ∈ new, ∃ frame, event = .share frame) ∧
    ∀ frame, new.count (.share frame) = vm.mappingsOf vm.current frame

/-- What one command can do. -/
inductive Effect (vm : Vm Count) : Command → Bool → Vm Count → Prop
  | allocMapped {vpn : Vpn} {rw : Nat} (hvalid : (vm.pte vm.current vpn).valid = true) :
      Effect vm (.alloc vpn rw) false vm
  | alloc {vpn : Vpn} {rw : Nat} {frame : Frame} {next : Vm Count}
      (hinvalid : (vm.pte vm.current vpn).valid = false) (hframe : vm.freeFrame = some frame)
      (hwrites : Writes vm next vpn (granted rw frame.val))
      (hcounts : Counts vm next [.assign frame]) : Effect vm (.alloc vpn rw) true next
  | allocFull {vpn : Vpn} {rw : Nat} {next : Vm Count}
      (hinvalid : (vm.pte vm.current vpn).valid = false) (hfull : vm.freeFrame = none)
      (hwrites : Writes vm next vpn (granted rw (vm.pte vm.current vpn).pfn))
      (hcounts : Counts vm next []) : Effect vm (.alloc vpn rw) true next
  | freeUnmapped {vpn : Vpn} (hinvalid : (vm.pte vm.current vpn).valid = false) :
      Effect vm (.free vpn) false vm
  | free {vpn : Vpn} {frame : Frame} {next : Vm Count}
      (hmaps : (vm.pte vm.current vpn).Maps frame) (hwrites : Writes vm next vpn .zero)
      (hcounts : Counts vm next [.drop frame]) : Effect vm (.free vpn) true next
  | accessHit {vpn : Vpn} {rw : Nat} (hvalid : (vm.pte vm.current vpn).valid = true)
      (hwritable : rw = RW_WRITE → (vm.pte vm.current vpn).writable = true) :
      Effect vm (.access vpn rw) true vm
  | accessRefused {vpn : Vpn} {rw : Nat}
      (hrefused : (vm.pte vm.current vpn).valid = false ∨
        ((vm.pte vm.current vpn).priv ≠ 1 ∧ rw = RW_WRITE ∧
          (vm.pte vm.current vpn).writable = false)) :
      Effect vm (.access vpn rw) false vm
  | unshare {vpn : Vpn} {frame : Frame} {next : Vm Count}
      (hmaps : (vm.pte vm.current vpn).Maps frame)
      (hprotected : (vm.pte vm.current vpn).writable = false)
      (hpriv : (vm.pte vm.current vpn).priv = 1)
      (halone : vm.mapcounts frame = 1 ∨ vm.freeFrame = none)
      (hwrites : Writes vm next vpn { vm.pte vm.current vpn with writable := true })
      (hcounts : Counts vm next []) : Effect vm (.access vpn RW_WRITE) true next
  | copy {vpn : Vpn} {frame target : Frame} {next : Vm Count}
      (hmaps : (vm.pte vm.current vpn).Maps frame)
      (hprotected : (vm.pte vm.current vpn).writable = false)
      (hpriv : (vm.pte vm.current vpn).priv = 1)
      (hshared : vm.mapcounts frame ≠ 1) (htarget : vm.freeFrame = some target)
      (hwrites : Writes vm next vpn
        { vm.pte vm.current vpn with writable := true, pfn := target.val })
      (hcounts : Counts vm next [.drop frame, .copy target]) :
      Effect vm (.access vpn RW_WRITE) true next
  | switch {pid check : Nat} (hmem : check ∈ vm.live) (hpid : (vm.procs check).pid = pid) :
      Effect vm (.switch pid) true
        { vm with
          current := check
          ptbr := some check
          processes := (vm.processes ++ [vm.current]).erase check }
  | fork {pid : Nat} {next : Vm Count} (hforks : Forks vm next pid) :
      Effect vm (.switch pid) true next

/-- The vpn is in range and the assertions on the flags hold. -/
def Command.InRange : Command → Prop
  | .alloc vpn rw => vpn < NR_PTES_PER_PAGE * NR_PTES_PER_PAGE ∧ rw ≠ 0
  | .free vpn => vpn < NR_PTES_PER_PAGE * NR_PTES_PER_PAGE
  | .access vpn rw => vpn < NR_PTES_PER_PAGE * NR_PTES_PER_PAGE ∧
      (rw &&& RW_READ) ^^^ (rw &&& RW_WRITE) ≠ 0
  | .switch _ => True

instance (command : Command) : Decidable command.InRange := by
  cases command <;> unfold Command.InRange <;> infer_instance

/-- A switch to a pid that nobody has is a fork. -/
theorem Effect.forks {vm next : Vm Count} {pid : Nat} {ret : Bool}
    (heffect : Effect vm (.switch pid) ret next)
    (hfresh : ∀ address ∈ vm.live, (vm.procs address).pid ≠ pid) : Forks vm next pid := by
  generalize hcommand : Command.switch pid = command at heffect
  cases heffect with
  | switch hmem hpid =>
      cases hcommand
      exact absurd hpid (hfresh _ hmem)
  | fork hforks =>
      cases hcommand
      exact hforks
  | _ => cases hcommand

/-! ## Every case keeps the shape of the state -/

theorem SameProcesses.live {vm next : Vm Count} (hsame : SameProcesses vm next) :
    next.live = vm.live := by
  rw [Vm.live, Vm.live, hsame.current, hsame.processes]

theorem Writes.wellFormed {vm next : Vm Count} {vpn : Vpn} {pte : Pte} (hwf : vm.WellFormed)
    (hwrites : Writes vm next vpn pte) (hpfn : pte.pfn < NR_PAGEFRAMES) : next.WellFormed where
  ptbr := by rw [hwrites.ptbr, hwrites.current]; exact hwf.ptbr
  nodup := by rw [hwrites.live]; exact hwf.nodup
  allocated := by rw [hwrites.live, hwrites.brk]; exact hwf.allocated
  pfn := by
    rw [hwrites.live]
    intro address haddress other
    rw [hwrites.pte]
    by_cases hcell : address = vm.current ∧ other = vpn
    · rw [if_pos hcell]; exact hpfn
    · rw [if_neg hcell]; exact hwf.pfn address haddress other

theorem live_perm (vm : Vm Count) : (vm.processes ++ [vm.current]).Perm vm.live :=
  List.perm_append_singleton _ _

/-- The new current process is taken off the list, so the live ones are the same. -/
theorem switch_live_perm {vm : Vm Count} {check : Nat} (hmem : check ∈ vm.live) :
    (check :: (vm.processes ++ [vm.current]).erase check).Perm vm.live :=
  (List.perm_cons_erase ((live_perm vm).mem_iff.mpr hmem)).symm.trans (live_perm vm)

theorem Forks.live_perm {vm next : Vm Count} {pid : Nat} (hforks : Forks vm next pid) :
    next.live.Perm (vm.brk :: vm.live) := by
  rw [Vm.live, hforks.current, hforks.processes]
  exact (Paging.live_perm vm).cons _

theorem Forks.wellFormed {vm next : Vm Count} {pid : Nat} (hwf : vm.WellFormed)
    (hforks : Forks vm next pid) : next.WellFormed where
  ptbr := by rw [hforks.ptbr, hforks.current]
  nodup := by
    rw [hforks.live_perm.nodup_iff, List.nodup_cons]
    exact ⟨fun hmem => Nat.lt_irrefl _ (hwf.allocated _ hmem), hwf.nodup⟩
  allocated := by
    intro address haddress
    rw [hforks.brk]
    rcases List.mem_cons.mp (hforks.live_perm.mem_iff.mp haddress) with rfl | hold
    · omega
    · have := hwf.allocated address hold; omega
  pfn := by
    intro address haddress vpn
    rcases List.mem_cons.mp (hforks.live_perm.mem_iff.mp haddress) with rfl | hold
    · rw [hforks.child]; exact pfn_lt hwf vpn
    · rcases List.mem_cons.mp hold with rfl | hlisted
      · rw [hforks.parent]; exact pfn_lt hwf vpn
      · rw [hforks.others address hlisted]; exact hwf.pfn address hold vpn

theorem Effect.wellFormed {vm next : Vm Count} {command : Command} {ret : Bool}
    (hwf : vm.WellFormed) (heffect : Effect vm command ret next) : next.WellFormed := by
  cases heffect with
  | allocMapped | freeUnmapped | accessHit | accessRefused => exact hwf
  | alloc _ _ hwrites => exact hwrites.wellFormed hwf (by simp [granted])
  | allocFull _ _ hwrites => exact hwrites.wellFormed hwf (pfn_lt hwf _)
  | free _ hwrites => exact hwrites.wellFormed hwf (by simp [Pte.zero])
  | unshare _ _ _ _ hwrites => exact hwrites.wellFormed hwf (pfn_lt hwf _)
  | copy _ _ _ _ _ hwrites => exact hwrites.wellFormed hwf (by simp)
  | switch hmem =>
      refine ⟨rfl, (switch_live_perm hmem).nodup_iff.mpr hwf.nodup, ?_, ?_⟩
      · intro address haddress
        exact hwf.allocated address ((switch_live_perm hmem).mem_iff.mp haddress)
      · intro address haddress
        exact hwf.pfn address ((switch_live_perm hmem).mem_iff.mp haddress)
  | fork hforks => exact hforks.wellFormed hwf

theorem init_wellFormed : (Vm.init : Vm Count).WellFormed where
  ptbr := rfl
  nodup := by simp [Vm.live, Vm.init]
  allocated := by simp [Vm.live, Vm.init]
  pfn := by simp [Vm.pte, Vm.init, PageTable.pte, Pte.zero]

/-! ## The cases are complete -/

theorem exec_alloc {vm : Vm Count} (hwf : vm.WellFormed) (vpn : Vpn) {rw : Nat} (hrw : rw ≠ 0) :
    ∃ ret next, exec .zeroed vm (.alloc vpn rw) = .ok (ret, next) ∧
      Effect vm (.alloc vpn rw) ret next := by
  simp only [exec, execReply, allocReply, if_neg hrw, translate_eq hwf, ok_bind]
  by_cases hvalid : (vm.pte vm.current vpn).valid = true
  · rw [if_pos ⟨hvalid, fun h => absurd h (by decide)⟩]
    exact ⟨false, vm, rfl, .allocMapped hvalid⟩
  · rw [if_neg fun h => hvalid h.1]
    have hinvalid := Bool.eq_false_iff.mpr hvalid
    cases hfree : vm.freeFrame with
    | some frame =>
        obtain ⟨next, halloc, hwrites, hcounts⟩ := allocPage_effect hwf rw vpn hfree
        have hframe : frame.val ≠ UINT_MAX := Nat.ne_of_lt (frame.isLt.trans (by decide))
        exact ⟨true, next, by simp [halloc, hframe, pure, Except.pure, Except.map, Reply.erase],
          .alloc hinvalid hfree hwrites hcounts⟩
    | none =>
        obtain ⟨next, halloc, hwrites, hcounts⟩ := allocPage_full hwf rw vpn hfree
        have hpfn : (vm.pte vm.current vpn).pfn ≠ UINT_MAX :=
          Nat.ne_of_lt ((pfn_lt hwf vpn).trans (by decide))
        exact ⟨true, next, by simp [halloc, hpfn, pure, Except.pure, Except.map, Reply.erase],
          .allocFull hinvalid hfree hwrites hcounts⟩

theorem exec_free {vm : Vm Count} (hwf : vm.WellFormed) (vpn : Vpn) :
    ∃ ret next, exec .zeroed vm (.free vpn) = .ok (ret, next) ∧
      Effect vm (.free vpn) ret next := by
  simp only [exec, execReply, freeReply, translate_eq hwf, ok_bind]
  by_cases hvalid : (vm.pte vm.current vpn).valid = true
  · rw [if_pos ⟨hvalid, fun h => absurd h (by decide)⟩]
    obtain ⟨next, frame, hfree, hframe, hwrites, hcounts⟩ := freePage_effect hwf hvalid
    exact ⟨true, next, by simp [hfree, pure, Except.pure, Except.map, Reply.erase],
      .free ⟨hvalid, hframe.symm⟩ hwrites hcounts⟩
  · rw [if_neg fun h => hvalid h.1]
    exact ⟨false, vm, rfl, .freeUnmapped (Bool.eq_false_iff.mpr hvalid)⟩

theorem exec_access {vm : Vm Count} (hwf : vm.WellFormed) (vpn : Vpn) {rw : Nat}
    (hflags : (rw &&& RW_READ) ^^^ (rw &&& RW_WRITE) ≠ 0) :
    ∃ ret next, exec .zeroed vm (.access vpn rw) = .ok (ret, next) ∧
      Effect vm (.access vpn rw) ret next := by
  by_cases hvalid : (vm.pte vm.current vpn).valid = true
  · by_cases hwritable : rw = RW_WRITE → (vm.pte vm.current vpn).writable = true
    · exact ⟨true, vm, accessMemory_hit hwf hflags hvalid hwritable,
        .accessHit hvalid hwritable⟩
    · obtain ⟨hwrite, hprotected⟩ := Classical.not_imp.mp hwritable
      have hprotected := Bool.eq_false_iff.mpr hprotected
      subst hwrite
      by_cases hpriv : (vm.pte vm.current vpn).priv = 1
      · -- the copy-on-write fault proper
        let frame : Frame := ⟨_, pfn_lt hwf vpn⟩
        have hmaps : (vm.pte vm.current vpn).Maps frame := ⟨hvalid, rfl⟩
        have halone : (vm.mapcounts frame = 1 ∨ vm.freeFrame = none) ∨
            (vm.mapcounts frame ≠ 1 ∧ ∃ target, vm.freeFrame = some target) := by
          cases vm.freeFrame <;> simp [or_iff_not_imp_left]
        rcases halone with halone | ⟨hshared, target, htarget⟩
        · obtain ⟨next, hfault, hwrites, hcounts⟩ :=
            handlePageFault_unshare hwf RW_WRITE hvalid hpriv hmaps.2.symm halone
          refine ⟨true, next, accessMemory_fault hwf
            (hwrites.wellFormed hwf (pfn_lt hwf vpn)) hprotected hfault ?_ ?_,
            .unshare hmaps hprotected hpriv halone hwrites hcounts⟩
          · rw [hwrites.self]; exact hvalid
          · rw [hwrites.self]
        · obtain ⟨next, hfault, hwrites, hcounts⟩ :=
            handlePageFault_copy hwf RW_WRITE hvalid hpriv hmaps.2.symm hshared htarget
          refine ⟨true, next, accessMemory_fault hwf
            (hwrites.wellFormed hwf (by simp)) hprotected hfault ?_ ?_,
            .copy hmaps hprotected hpriv hshared htarget hwrites hcounts⟩
          · rw [hwrites.self]; exact hvalid
          · rw [hwrites.self]
      · have hrefused : (vm.pte vm.current vpn).valid = false ∨
            ((vm.pte vm.current vpn).priv ≠ 1 ∧ RW_WRITE = RW_WRITE ∧
              (vm.pte vm.current vpn).writable = false) := .inr ⟨hpriv, rfl, hprotected⟩
        exact ⟨false, vm, accessMemory_refused hwf hflags hrefused, .accessRefused hrefused⟩
  · have hrefused : (vm.pte vm.current vpn).valid = false ∨
        ((vm.pte vm.current vpn).priv ≠ 1 ∧ rw = RW_WRITE ∧
          (vm.pte vm.current vpn).writable = false) := .inl (Bool.eq_false_iff.mpr hvalid)
    exact ⟨false, vm, accessMemory_refused hwf hflags hrefused, .accessRefused hrefused⟩

theorem exec_switch {vm : Vm Count} (hwf : vm.WellFormed) (pid : Nat) :
    ∃ ret next, exec .zeroed vm (.switch pid) = .ok (ret, next) ∧
      Effect vm (.switch pid) ret next := by
  simp only [exec, execReply, switchProcess]
  cases hfind : (vm.processes ++ [vm.current]).find? fun check =>
      decide ((vm.procs check).pid = pid) with
  | some check =>
      have hpid := List.find?_some hfind
      exact ⟨true, _, rfl, .switch ((live_perm vm).mem_iff.mp (List.mem_of_find?_eq_some hfind))
        (by simpa using hpid)⟩
  | none =>
      obtain ⟨⟨looped, child⟩, hloops, hforked⟩ := fork_loops
        { vm with processes := vm.processes ++ [vm.current] }
        (fun i j => by
          have hlt := pfn_lt hwf (finProdFinEquiv (i, j))
          have hcell := finProdFinEquiv.symm_apply_apply (i, j)
          simp only [finProdFinEquiv_symm_apply, Prod.mk.injEq] at hcell
          rwa [Vm.pte, hcell.1, hcell.2] at hlt)
      simp only [hloops, ok_bind]
      refine ⟨true, _, rfl, .fork ?_⟩
      have hsame := hforked.same
      have hnew : ∀ address ∈ vm.live, address ≠ vm.brk := fun address haddress =>
        Nat.ne_of_lt (hwf.allocated address haddress)
      have hbrk : looped.brk = vm.brk := hsame.brk
      have hcurrent : vm.current ≠ vm.brk := hnew _ (by simp [Vm.live])
      constructor
      case fresh =>
        intro address haddress
        have := List.find?_eq_none.mp hfind address ((live_perm vm).mem_iff.mpr haddress)
        simpa using this
      case current => exact hbrk
      case processes => exact hsame.processes
      case brk => simp [hbrk]
      case ptbr => simp [hbrk]
      case pid => simp [hbrk]
      case pids =>
        intro address haddress
        simpa [hbrk, hnew address haddress] using hsame.pid address
      case child =>
        intro vpn
        simpa [Vm.pte, hbrk] using hforked.child vpn.divNat vpn.modNat trivial
      case parent =>
        intro vpn
        simpa [Vm.pte, hbrk, hcurrent] using hforked.cleared vpn.divNat vpn.modNat trivial
      case others =>
        intro address haddress vpn
        have hne : address ≠ vm.current := fun heq =>
          (List.nodup_cons.mp hwf.nodup).1 (heq ▸ haddress)
        have hlive : address ≠ vm.brk := hnew address (List.mem_cons_of_mem _ haddress)
        have hsameProc : looped.procs address = vm.procs address := hforked.others address hne
        simp [Vm.pte, hbrk, hlive, hsameProc]
      case counts =>
        obtain ⟨new, hcounts, hshares, htotal⟩ := hforked.counts
        exact ⟨new, ⟨hcounts.mapcounts, hcounts.events⟩, hshares, htotal⟩

/-- On zeroed memory a command in range succeeds, and does one of the listed things. -/
theorem exec_effect {vm : Vm Count} (hwf : vm.WellFormed) {command : Command}
    (hrange : command.InRange) :
    ∃ ret next, exec .zeroed vm command = .ok (ret, next) ∧ Effect vm command ret next := by
  cases command with
  | alloc vpn rw => exact exec_alloc hwf ⟨vpn, hrange.1⟩ hrange.2
  | free vpn => exact exec_free hwf ⟨vpn, hrange⟩
  | access vpn rw => exact exec_access hwf ⟨vpn, hrange.1⟩ hrange.2
  | switch pid => exact exec_switch hwf pid

/-! ## Runs -/

/-- The simulator on zeroed memory, with the commands that `guard` admits. -/
def machine (guard : Vm Count → Command → Prop) : Machine (Vm Count) Command where
  init := .init
  step vm command next := command.InRange ∧ guard vm command ∧
    ∃ ret, exec .zeroed vm command = .ok (ret, next)

/-- The state after one command on zeroed memory. -/
def Vm.after (vm : Vm Count) (command : Command) : Vm Count :=
  match exec .zeroed vm command with
  | .ok (_, next) => next
  | .error _ => vm

variable {guard : Vm Count → Command → Prop} {vm next : Vm Count} {command : Command}

theorem step_effect (hwf : vm.WellFormed) (hstep : (machine guard).step vm command next) :
    ∃ ret, Effect vm command ret next := by
  obtain ⟨hrange, -, ret, hexec⟩ := hstep
  obtain ⟨ret', next', hexec', heffect⟩ := exec_effect hwf hrange
  rw [hexec] at hexec'
  cases hexec'
  exact ⟨ret, heffect⟩

theorem reachable_wellFormed (hreach : (machine guard).Reachable vm) : vm.WellFormed :=
  hreach.invariant Vm.WellFormed init_wellFormed fun _ _ _ _ hwf hstep =>
    (step_effect hwf hstep).choose_spec.wellFormed hwf

theorem after_run {commands : List Command} (hrun : (machine guard).Run commands vm)
    (hrange : command.InRange) (hguard : guard vm command) :
    (machine guard).Run (commands ++ [command]) (vm.after command) := by
  obtain ⟨ret, next, hexec, -⟩ := exec_effect (reachable_wellFormed hrun.reachable) hrange
  have hafter : vm.after command = next := by simp [Vm.after, hexec]
  exact hrun.snoc ⟨hrange, hguard, ret, hafter ▸ hexec⟩

/-- The guard admits every command of the list where it is executed. -/
def Vm.Admits (guard : Vm Count → Command → Prop) : Vm Count → List Command → Prop
  | _, [] => True
  | vm, command :: rest =>
      command.InRange ∧ guard vm command ∧ (vm.after command).Admits guard rest

/-- Admitted commands can be run. -/
theorem admits_run {done commands : List Command} (hrun : (machine guard).Run done vm)
    (hadmits : vm.Admits guard commands) :
    (machine guard).Run (done ++ commands) (commands.foldl Vm.after vm) := by
  induction commands generalizing done vm with
  | nil => simpa using hrun
  | cons command rest ih =>
      obtain ⟨hrange, hguard, hrest⟩ := hadmits
      have hnext := after_run hrun hrange hguard
      simpa using ih hnext hrest

/-- On admitted commands `__do_simulation` returns, and in a reachable state. -/
theorem doSimulation_reachable {commands : List Command} (hreach : (machine guard).Reachable vm)
    (hadmits : vm.Admits guard commands) :
    ∃ final, __doSimulation .zeroed vm commands = .ok final ∧ (machine guard).Reachable final := by
  induction commands generalizing vm with
  | nil => exact ⟨vm, rfl, hreach⟩
  | cons command rest ih =>
      obtain ⟨hrange, hguard, hrest⟩ := hadmits
      obtain ⟨ret, next, hexec, -⟩ := exec_effect (reachable_wellFormed hreach) hrange
      have hafter : vm.after command = next := by simp [Vm.after, hexec]
      have hnext : (machine guard).Reachable next := hreach.step ⟨hrange, hguard, ret, hexec⟩
      obtain ⟨final, hrun, hfinal⟩ := ih hnext (hafter ▸ hrest)
      simp only [__doSimulation, hexec, ok_bind]
      cases ret with
      | true => exact ⟨final, by simpa using hrun, hfinal⟩
      | false =>
          cases command with
          | alloc => exact ⟨next, rfl, hnext⟩
          | free | access | switch => exact ⟨final, hrun, hfinal⟩

end OperatingSystem.Paging
