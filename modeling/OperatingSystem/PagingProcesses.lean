import OperatingSystem.PagingCounts
import OperatingSystem.PagingMalloc

/-!
# The set of processes

`switch_process` puts the current process at the end of the list and then looks for the pid
there, so a switch to the current process finds it as well. Nothing here depends on what
`malloc` leaves in its blocks: the pids of the processes are 0 and those that have been
switched to, and each of them belongs to one process.
-/

namespace OperatingSystem.Paging

set_option linter.style.nameCheck false

/-! ## Commands that switch no process -/

theorem SameProcesses.refl (vm : Vm Word) : SameProcesses vm vm :=
  ⟨rfl, rfl, rfl, rfl, fun _ => rfl⟩

theorem storePte_same (vm : Vm Word) (address : Nat) (i j : Fin NR_PTES_PER_PAGE) (pte : Pte) :
    SameProcesses vm (vm.storePte address i j pte) :=
  setTable_same vm address _

theorem count_same (vm : Vm Word) (event : MapEvent) : SameProcesses vm (vm.count event) :=
  ⟨rfl, rfl, rfl, rfl, fun _ => rfl⟩

theorem mallocDirectory_same (fresh : Malloc) (vm : Vm Word) (address : Nat)
    (i : Fin NR_PTES_PER_PAGE) : SameProcesses vm (vm.mallocDirectory fresh address i) := by
  unfold Vm.mallocDirectory
  split
  · exact setTable_same vm address _
  · exact .refl vm

section Same

variable {fresh : Malloc} {vm next : Vm Word} {vpn rw : Nat}

theorem allocPage_same {pfn : Nat} (halloc : allocPage fresh vm vpn rw = .ok (pfn, next)) :
    SameProcesses vm next := by
  obtain ⟨table, -, halloc⟩ := of_bind_ok halloc
  obtain ⟨out_idx, -, halloc⟩ := of_bind_ok halloc
  have hopened := mallocDirectory_same fresh vm table out_idx
  split at halloc
  · cases hfree : (vm.mallocDirectory fresh table out_idx).freeFrame with
    | none =>
        simp only [hfree] at halloc
        cases halloc
        exact (hopened.trans (storePte_same ..)).trans (setTable_same ..)
    | some frame =>
        simp only [hfree] at halloc
        cases halloc
        exact ((hopened.trans (count_same ..)).trans (storePte_same ..)).trans (setTable_same ..)
  · cases halloc
    exact hopened

theorem freePage_same (hfree : freePage vm vpn = .ok next) : SameProcesses vm next := by
  obtain ⟨table, -, hfree⟩ := of_bind_ok hfree
  obtain ⟨out_idx, -, hfree⟩ := of_bind_ok hfree
  split at hfree
  · cases hfree
  · obtain ⟨frame, -, hfree⟩ := of_bind_ok hfree
    cases hfree
    exact (count_same ..).trans (storePte_same ..)

theorem handlePageFault_same {ret : Bool} (hfault : handlePageFault vm vpn rw = .ok (ret, next)) :
    SameProcesses vm next := by
  obtain ⟨table, -, hfault⟩ := of_bind_ok hfault
  obtain ⟨out_idx, -, hfault⟩ := of_bind_ok hfault
  cases hdir : (vm.procs table).pagetable out_idx with
  | none =>
      simp only [hdir] at hfault
      cases hfault
      exact .refl vm
  | some directory =>
      simp only [hdir] at hfault
      split_ifs at hfault
      · cases hfault
        exact .refl vm
      · obtain ⟨frame, -, hfault⟩ := of_bind_ok hfault
        split at hfault
        · split at hfault
          · cases hfault
            exact (((storePte_same ..).trans (count_same ..)).trans (storePte_same ..)).trans
              (count_same ..)
          · cases hfault
            exact storePte_same ..
        · cases hfault
          exact storePte_same ..
      · cases hfault
        exact .refl vm
      · cases hfault
        exact .refl vm

theorem accessLoop_same {reply : Reply} {retries : Nat}
    (haccess : accessLoop vpn rw retries vm = .ok (reply, next)) : SameProcesses vm next := by
  induction retries generalizing vm with
  | zero =>
      rw [accessLoop] at haccess
      obtain ⟨translation, -, haccess⟩ := of_bind_ok haccess
      cases translation with
      | some pfn =>
          cases haccess
          exact .refl _
      | none =>
          obtain ⟨⟨handled, mid⟩, hfault, haccess⟩ := of_bind_ok haccess
          cases haccess
          exact handlePageFault_same hfault
  | succ retries ih =>
      rw [accessLoop] at haccess
      obtain ⟨translation, -, haccess⟩ := of_bind_ok haccess
      cases translation with
      | some pfn =>
          cases haccess
          exact .refl _
      | none =>
          obtain ⟨⟨handled, mid⟩, hfault, haccess⟩ := of_bind_ok haccess
          have hmid := handlePageFault_same hfault
          cases handled with
          | true => exact hmid.trans (ih haccess)
          | false =>
              cases haccess
              exact hmid

/-- A command that is no switch keeps the processes. -/
theorem exec_same {command : Command} {ret : Bool} (hpage : command.page.isSome)
    (hexec : exec fresh vm command = .ok (ret, next)) : SameProcesses vm next := by
  obtain ⟨reply, hexec, -⟩ := execReply_of_exec hexec
  cases command with
  | switch pid => cases hpage
  | alloc vpn rw =>
      simp only [execReply, allocReply] at hexec
      split at hexec
      · cases hexec
      obtain ⟨translation, -, hexec⟩ := of_bind_ok hexec
      cases translation with
      | some pfn =>
          cases hexec
          exact .refl vm
      | none =>
          obtain ⟨⟨pfn, mid⟩, halloc, hexec⟩ := of_bind_ok hexec
          cases hexec
          exact allocPage_same halloc
  | free vpn =>
      obtain ⟨translation, -, hexec⟩ := of_bind_ok hexec
      cases translation with
      | none =>
          cases hexec
          exact .refl vm
      | some pfn =>
          obtain ⟨mid, hfree, hexec⟩ := of_bind_ok hexec
          cases hexec
          exact freePage_same hfree
  | access vpn rw =>
      simp only [execReply, accessReply] at hexec
      split at hexec
      · cases hexec
      split at hexec
      · cases hexec
      exact accessLoop_same hexec

end Same

/-! ## Switches -/

/-- The process of a pid, if there is one. -/
def Vm.pids (vm : Vm Word) : List Nat := vm.live.map fun address => (vm.procs address).pid

/-- A new process is the current one, and the one before is on the list. -/
structure Spawns (vm next : Vm Word) (pid : Nat) : Prop where
  current : next.current = vm.brk
  processes : next.processes = vm.processes ++ [vm.current]
  brk : next.brk = vm.brk + 1
  ptbr : next.ptbr = some vm.brk
  pid : (next.procs vm.brk).pid = pid
  pids : ∀ address, address ≠ vm.brk → (next.procs address).pid = (vm.procs address).pid

section Switch

variable {fresh : Malloc} {vm next : Vm Word} {pid : Nat}

theorem forkPte_same {i j : Fin NR_PTES_PER_PAGE} {state result : Vm Word × PageTable}
    (hfork : forkPte i state j = .ok result) : SameProcesses state.1 result.1 := by
  obtain ⟨vm, child⟩ := state
  simp only [forkPte] at hfork
  split_ifs at hfork
  · obtain ⟨frame, -, hfork⟩ := of_bind_ok hfork
    cases hfork
    exact (storePte_same ..).trans (count_same ..)
  · cases hfork
    exact storePte_same ..

theorem forkDirectory_same {i : Fin NR_PTES_PER_PAGE} {state result : Vm Word × PageTable}
    (hfork : forkDirectory fresh state i = .ok result) : SameProcesses state.1 result.1 := by
  unfold forkDirectory at hfork
  split at hfork
  · cases hfork
    exact .refl _
  · apply foldlM_related (fun start state => SameProcesses start.1 state.1)
      (fun _ => .refl _) _ hfork
    intro start state j next hsame hnext
    exact hsame.trans (forkPte_same hnext)

theorem lookup_eq_none : (vm.processes ++ [vm.current]).find? (fun check =>
    decide ((vm.procs check).pid = pid)) = none ↔ pid ∉ vm.pids := by
  rw [List.find?_eq_none]
  simp only [(live_perm vm).mem_iff, Vm.pids, List.mem_map, decide_eq_true_eq, not_exists, not_and]

/-- A switch looks for the pid among all processes, and creates one only if there is none. -/
theorem switchProcess_cases (hswitch : switchProcess fresh vm pid = .ok next) :
    (∃ check ∈ vm.live, (vm.procs check).pid = pid ∧
      next = { vm with
        current := check, ptbr := some check
        processes := (vm.processes ++ [vm.current]).erase check }) ∨
    (pid ∉ vm.pids ∧ Spawns vm next pid) := by
  simp only [switchProcess] at hswitch
  cases hfind : (vm.processes ++ [vm.current]).find? fun check =>
      decide ((vm.procs check).pid = pid) with
  | some check =>
      left
      simp only [hfind] at hswitch
      refine ⟨check, (live_perm vm).mem_iff.mp (List.mem_of_find?_eq_some hfind), ?_, ?_⟩
      · simpa using List.find?_some hfind
      · cases hswitch
        rfl
  | none =>
      right
      simp only [hfind] at hswitch
      obtain ⟨⟨looped, child⟩, hloops, hswitch⟩ := of_bind_ok hswitch
      have hsame := foldlM_related
        (fun start state : Vm Word × PageTable => SameProcesses start.1 state.1)
        (fun _ => .refl _) (fun _ _ _ _ hsame hnext => hsame.trans (forkDirectory_same hnext))
        hloops
      cases hswitch
      constructor
      · exact lookup_eq_none.mp hfind
      · have hbrk : looped.brk = vm.brk := hsame.brk
        constructor
        case current => exact hbrk
        case processes => exact hsame.processes
        case brk => simp [hbrk]
        case ptbr => simp [hbrk]
        case pid => simp [hbrk]
        case pids =>
          intro address haddress
          simpa [hbrk, haddress] using hsame.pid address

/-- A switch to a process that exists succeeds. -/
theorem switchProcess_found (fresh : Malloc) {vm : Vm Word} {pid : Nat} (hpid : pid ∈ vm.pids) :
    ∃ next, switchProcess fresh vm pid = .ok next := by
  simp only [switchProcess]
  cases hfind : (vm.processes ++ [vm.current]).find? fun check =>
      decide ((vm.procs check).pid = pid) with
  | some check => exact ⟨_, rfl⟩
  | none => exact absurd hpid (lookup_eq_none.mp hfind)

end Switch

/-! ## Runs -/

/-- The simulator, whatever `malloc` leaves to each of its commands. -/
def simulator : Machine (Vm Word) (Malloc × Command) where
  init := .init
  step vm label next := ∃ ret, exec label.1 vm label.2 = .ok (ret, next)

/-- The processes after some commands: those of the pids 0 and of the switches, each of them
once; the register belongs to the current one, which is not on the list. -/
structure Vm.Populated (vm : Vm Word) (commands : List Command) : Prop where
  distinct : vm.pids.Nodup
  pids : ∀ pid, pid ∈ vm.pids ↔ pid = 0 ∨ .switch pid ∈ commands
  unlisted : vm.current ∉ vm.processes
  ptbr : vm.ptbr = some vm.current

/-- What a switch does: it finds the process of the pid and changes no table, or it creates one
if there is none. -/
structure Switches (vm : Vm Word) (pid : Nat) (next : Vm Word) : Prop where
  current : (next.procs next.current).pid = pid
  found : pid ∈ vm.pids →
    next.procs = vm.procs ∧ next.mapcounts = vm.mapcounts ∧ next.live.Perm vm.live
  created : pid ∉ vm.pids → next.current ∉ vm.live ∧ next.live.Perm (next.current :: vm.live)

theorem Vm.Populated.nodup {vm : Vm Word} {commands : List Command}
    (hpopulated : vm.Populated commands) :
    vm.live.Nodup :=
  hpopulated.distinct.of_map _

section Steps

variable {vm next : Vm Word} {pid : Nat} {commands : List Command}

theorem SameProcesses.pids (hsame : SameProcesses vm next) : next.pids = vm.pids := by
  rw [Vm.pids, Vm.pids, hsame.live]
  exact List.map_congr_left fun address _ => hsame.pid address

theorem SameProcesses.populated (hsame : SameProcesses vm next)
    (hpopulated : vm.Populated commands) {command : Command} (hpage : command.page.isSome) :
    next.Populated (commands ++ [command]) where
  distinct := by
    rw [hsame.pids]
    exact hpopulated.distinct
  pids := fun pid => by
    have hcommand : .switch pid ≠ command := by
      rintro rfl
      cases hpage
    rw [hsame.pids, hpopulated.pids, List.mem_append, List.mem_singleton, or_iff_left hcommand]
  unlisted := by
    rw [hsame.current, hsame.processes]
    exact hpopulated.unlisted
  ptbr := by
    rw [hsame.ptbr, hsame.current]
    exact hpopulated.ptbr

theorem Spawns.live_perm (hspawns : Spawns vm next pid) : next.live.Perm (vm.brk :: vm.live) := by
  rw [Vm.live, hspawns.current, hspawns.processes]
  exact (Paging.live_perm vm).cons _

theorem Spawns.pids_perm (hspawns : Spawns vm next pid)
    (hallocated : ∀ address ∈ vm.live, address < vm.brk) : next.pids.Perm (pid :: vm.pids) := by
  have hmap := hspawns.live_perm.map fun address => (next.procs address).pid
  rw [List.map_cons, hspawns.pid] at hmap
  have hold : vm.live.map (fun address => (next.procs address).pid) = vm.pids :=
    List.map_congr_left fun address haddress =>
      hspawns.pids address (hallocated address haddress).ne
  rwa [hold] at hmap

theorem switch_populated {check : Nat} (hcheck : check ∈ vm.live)
    (hpid : (vm.procs check).pid = pid)
    (hpopulated : vm.Populated commands) :
    Vm.Populated { vm with
      current := check, ptbr := some check
      processes := (vm.processes ++ [vm.current]).erase check } (commands ++ [.switch pid]) := by
  have hperm := (switch_live_perm hcheck).map fun address => (vm.procs address).pid
  have hold : pid ∈ vm.pids := hpid ▸ List.mem_map_of_mem hcheck
  constructor
  case distinct => exact hperm.nodup_iff.mpr hpopulated.distinct
  case pids =>
    intro other
    have hmem : other ∈ vm.pids ↔ _ := hpopulated.pids other
    rw [List.mem_append, List.mem_singleton, ← or_assoc, ← hmem]
    refine hperm.mem_iff.trans ⟨.inl, ?_⟩
    rintro (hother | hother)
    · exact hother
    · cases hother
      exact hold
  case unlisted =>
    have hnodup := (switch_live_perm hcheck).nodup_iff.mpr hpopulated.nodup
    exact (List.nodup_cons.mp hnodup).1
  case ptbr => rfl

theorem Spawns.populated (hspawns : Spawns vm next pid) (hnew : pid ∉ vm.pids)
    (hallocated : ∀ address ∈ vm.live, address < vm.brk) (hpopulated : vm.Populated commands) :
    next.Populated (commands ++ [.switch pid]) := by
  have hperm := hspawns.pids_perm hallocated
  constructor
  case distinct =>
    rw [hperm.nodup_iff, List.nodup_cons]
    exact ⟨hnew, hpopulated.distinct⟩
  case pids =>
    intro other
    rw [hperm.mem_iff, List.mem_cons, hpopulated.pids, List.mem_append, List.mem_singleton,
      Command.switch.injEq]
    tauto
  case unlisted =>
    rw [hspawns.current, hspawns.processes, (Paging.live_perm vm).mem_iff]
    exact fun hmem => absurd (hallocated _ hmem) (Nat.lt_irrefl _)
  case ptbr => rw [hspawns.ptbr, hspawns.current]

end Steps

theorem init_populated : Vm.init.Populated [] where
  distinct := List.nodup_singleton 0
  pids := by simp [Vm.pids, Vm.live, Vm.init]
  unlisted := List.not_mem_nil
  ptbr := rfl

/-- A reachable state is one of the simulator on memory with any contents. -/
theorem exists_simulator_run {guard : Vm Word → Command → Prop} {vm : Vm Word}
    (hreach : (machine guard).Reachable vm) : ∃ labels, simulator.Run labels vm := by
  apply hreach.invariant fun vm => ∃ labels, simulator.Run labels vm
  · exact ⟨[], .nil⟩
  · rintro vm command next - ⟨labels, hrun⟩ ⟨-, -, ret, hexec⟩
    have hstep : simulator.step vm (.zeroed, command) next := ⟨ret, hexec⟩
    exact ⟨_, hrun.snoc hstep⟩

theorem exec_switch_ok {fresh : Malloc} {vm next : Vm Word} {pid : Nat} {ret : Bool}
    (hexec : exec fresh vm (.switch pid) = .ok (ret, next)) :
    ret = true ∧ switchProcess fresh vm pid = .ok next := by
  obtain ⟨reply, hreply, hret⟩ := execReply_of_exec hexec
  obtain ⟨after, hswitch, hafter⟩ := of_bind_ok hreply
  cases hafter
  exact ⟨hret.symm, hswitch⟩

theorem run_populated {labels : List (Malloc × Command)} {vm : Vm Word}
    (hrun : simulator.Run labels vm) :
    vm.Populated (labels.map Prod.snd) ∧ ∀ address ∈ vm.live, address < vm.brk := by
  apply hrun.invariant fun labels vm =>
    vm.Populated (labels.map Prod.snd) ∧ ∀ address ∈ vm.live, address < vm.brk
  · exact ⟨init_populated, init_wellFormed.allocated⟩
  · rintro labels vm ⟨fresh, command⟩ next - ⟨hpopulated, hallocated⟩ ⟨ret, hexec⟩
    rw [List.map_append, List.map_singleton]
    cases command with
    | alloc | free | access =>
        have hsame := exec_same rfl hexec
        refine ⟨hsame.populated hpopulated rfl, ?_⟩
        rwa [hsame.live, hsame.brk]
    | switch pid =>
        rcases switchProcess_cases (exec_switch_ok hexec).2 with
          ⟨check, hcheck, hpid, rfl⟩ | ⟨hnew, hspawns⟩
        · refine ⟨switch_populated hcheck hpid hpopulated, fun address haddress => ?_⟩
          exact hallocated address ((switch_live_perm hcheck).mem_iff.mp haddress)
        · refine ⟨hspawns.populated hnew hallocated hpopulated, fun address haddress => ?_⟩
          rw [hspawns.brk]
          rcases List.mem_cons.mp (hspawns.live_perm.mem_iff.mp haddress) with rfl | hold
          · exact Nat.lt_succ_self _
          · exact Nat.lt_succ_of_lt (hallocated address hold)

theorem switchProcess_switches {fresh : Malloc} {vm next : Vm Word} {pid : Nat}
    (hallocated : ∀ address ∈ vm.live, address < vm.brk)
    (hswitch : switchProcess fresh vm pid = .ok next) : Switches vm pid next := by
  rcases switchProcess_cases hswitch with ⟨check, hcheck, hpid, rfl⟩ | ⟨hnew, hspawns⟩
  · refine ⟨hpid, fun _ => ⟨rfl, rfl, switch_live_perm hcheck⟩, fun hnew => ?_⟩
    exact absurd (hpid ▸ List.mem_map_of_mem hcheck) hnew
  · constructor
    case current => rw [hspawns.current, hspawns.pid]
    case found => exact fun hold => absurd hold hnew
    case created =>
      rw [hspawns.current]
      exact fun _ => ⟨fun hmem => Nat.lt_irrefl _ (hallocated _ hmem), hspawns.live_perm⟩

/-- **The process set.** After any commands, whatever `malloc` has left to them, the processes
are one for 0 and for each pid that has been switched to; a switch makes the process of its pid
the current one, and creates it only if there is none. On zeroed memory it always returns. -/
theorem process_set :
    (∀ labels vm, simulator.Run labels vm → vm.Populated (labels.map Prod.snd) ∧
      ∀ fresh pid,
        (pid ∈ vm.pids → ∃ next, exec fresh vm (.switch pid) = .ok (true, next)) ∧
        ∀ ret next, exec fresh vm (.switch pid) = .ok (ret, next) → Switches vm pid next) ∧
    ∀ vm : Vm Word, (machine always).Reachable vm →
      ∀ pid, ∃ next, exec .zeroed vm (.switch pid) = .ok (true, next) := by
  constructor
  · intro labels vm hrun
    obtain ⟨hpopulated, hallocated⟩ := run_populated hrun
    refine ⟨hpopulated, fun fresh pid => ⟨fun hold => ?_, fun ret next hexec => ?_⟩⟩
    · obtain ⟨next, hswitch⟩ := switchProcess_found fresh hold
      exact ⟨next, by rw [exec, execReply, hswitch]; rfl⟩
    · exact switchProcess_switches hallocated (exec_switch_ok hexec).2
  · intro vm hreach pid
    obtain ⟨ret, next, hexec, -⟩ := exec_switch (reachable_wellFormed hreach) pid
    obtain ⟨rfl, -⟩ := exec_switch_ok hexec
    exact ⟨next, hexec⟩

/-- A process is created in memory with contents, and switched to itself. -/
theorem process_set_spawned : (Vm.spawned .leftover 7).Populated [.switch 7] ∧
    ∃ next, exec .leftover (Vm.spawned .leftover 7) (.switch 7) = .ok (true, next) ∧
      Switches (Vm.spawned .leftover 7) 7 next := by
  have hrun : simulator.Run [(.leftover, .switch 7)] (Vm.spawned .leftover 7) :=
    Machine.Run.nil.snoc ⟨true, fork_init .leftover (by decide)⟩
  obtain ⟨hpopulated, hswitches⟩ := process_set.1 _ _ hrun
  obtain ⟨next, hexec⟩ := (hswitches .leftover 7).1 ((hpopulated.pids 7).mpr (.inr (by simp)))
  exact ⟨hpopulated, next, hexec, (hswitches .leftover 7).2 _ _ hexec⟩

end OperatingSystem.Paging
