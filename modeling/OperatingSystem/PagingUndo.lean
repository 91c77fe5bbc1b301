import OperatingSystem.PagingProcesses

/-!
# A fork undone

The fork takes the write permission of the parent's entries away and counts each of its
mappings once more. If the child frees all it has been given, the counts are what they were;
the entries of the parent stay protected, but a write fault gives the permission back.
-/

namespace OperatingSystem.Paging

set_option linter.style.nameCheck false

/-! ## Freeing a list of pages -/

/-- The current process has freed the pages of a list. -/
structure Frees (vm : Vm Word) (vpns : List Vpn) (next : Vm Word) : Prop
    extends SameProcesses vm next where
  wellFormed : next.WellFormed
  pte : ∀ address vpn, next.pte address vpn =
    if address = vm.current ∧ vpn ∈ vpns then .zero else vm.pte address vpn
  mapcounts : ∀ frame, next.mapcounts frame =
    vm.mapcounts frame - vpns.countP fun vpn => (vm.pte vm.current vpn).Maps frame

theorem Frees.nil {vm : Vm Word} (hwf : vm.WellFormed) : Frees vm [] vm where
  toSameProcesses := .refl vm
  wellFormed := hwf
  pte := by simp
  mapcounts := by simp

/-- One page more, freed before the others. -/
theorem Frees.cons {vm mid next : Vm Word} {vpn : Vpn} {vpns : List Vpn} {frame : Frame}
    (hmaps : (vm.pte vm.current vpn).Maps frame) (hwrites : Writes vm mid vpn .zero)
    (hcounts : Counts vm mid [.drop frame]) (hvpn : vpn ∉ vpns) (hfrees : Frees mid vpns next) :
    Frees vm (vpn :: vpns) next where
  toSameProcesses := hwrites.toSameProcesses.trans hfrees.toSameProcesses
  wellFormed := hfrees.wellFormed
  pte := fun address other => by
    rw [hfrees.pte, hwrites.pte, hwrites.current]
    by_cases haddress : address = vm.current
    · by_cases hother : other = vpn
      · subst hother
        simp [haddress]
      · simp [haddress, hother]
    · simp [haddress]
  mapcounts := fun other => by
    have hsame : vpns.countP (fun vpn => (mid.pte mid.current vpn).Maps other) =
        vpns.countP fun vpn => (vm.pte vm.current vpn).Maps other := by
      refine List.countP_congr fun page hpage => ?_
      have hne : page ≠ vpn := fun heq => hvpn (heq ▸ hpage)
      rw [hwrites.current, hwrites.pte, if_neg fun h => hne h.2]
    rw [hfrees.mapcounts, hcounts.mapcounts, hsame, List.countP_cons]
    rcases eq_or_ne other frame with rfl | hne
    · simp [MapEvent.apply, hmaps, sub_sub, add_comm]
    · have hother : ¬ (vm.pte vm.current vpn).Maps other := fun hother =>
        hne (Fin.ext (hother.2.symm.trans hmaps.2))
      simp [MapEvent.apply, hother, hne]

/-- Pages that are mapped can be freed in any order. -/
theorem free_all {vm : Vm Word} (hwf : vm.WellFormed) {vpns : List Vpn} (hnodup : vpns.Nodup)
    (hmapped : ∀ vpn ∈ vpns, (vm.pte vm.current vpn).valid = true) :
    ∃ next, Frees vm vpns next ∧ ∀ rest,
      __doSimulation .zeroed vm (vpns.map (fun vpn => .free vpn) ++ rest) =
        __doSimulation .zeroed next rest := by
  induction vpns generalizing vm with
  | nil => exact ⟨vm, .nil hwf, fun _ => rfl⟩
  | cons vpn vpns ih =>
      obtain ⟨hvpn, hnodup⟩ := List.nodup_cons.mp hnodup
      have hvalid := hmapped vpn List.mem_cons_self
      obtain ⟨mid, frame, hfree, hframe, hwrites, hcounts⟩ := freePage_effect hwf hvalid
      have hexec : exec .zeroed vm (.free vpn) = .ok (true, mid) := by
        simp only [exec, execReply, freeReply, translate_eq hwf, ok_bind, hvalid, hfree]
        rfl
      have hkept : ∀ page ∈ vpns, (mid.pte mid.current page).valid = true := by
        intro page hpage
        have hne : page ≠ vpn := fun heq => hvpn (heq ▸ hpage)
        rw [hwrites.current, hwrites.pte, if_neg fun h => hne h.2]
        exact hmapped page (List.mem_cons_of_mem _ hpage)
      obtain ⟨next, hfrees, hrun⟩ := ih (hwrites.wellFormed hwf (by simp [Pte.zero])) hnodup hkept
      refine ⟨next, hfrees.cons ⟨hvalid, hframe.symm⟩ hwrites hcounts hvpn, fun rest => ?_⟩
      rw [List.map_cons, List.cons_append, __doSimulation, hexec]
      exact hrun rest

/-- A list of all mapped pages has each mapping of a frame once. -/
theorem countP_mapped {vm : Vm Word} {vpns : List Vpn} (hnodup : vpns.Nodup) (address : Nat)
    (hmapped : ∀ vpn, vpn ∈ vpns ↔ (vm.pte address vpn).valid = true) (frame : Frame) :
    vpns.countP (fun vpn => (vm.pte address vpn).Maps frame) = vm.mappingsOf address frame := by
  rw [List.countP_eq_length_filter, ← List.toFinset_card_of_nodup (hnodup.filter _), Vm.mappingsOf]
  congr 1
  ext vpn
  simp only [List.mem_toFinset, List.mem_filter, decide_eq_true_eq, Finset.mem_filter_univ]
  exact and_iff_right_of_imp fun hmaps => (hmapped vpn).mpr hmaps.1

/-! ## The way back -/

/-- A switch to the pid of a process, if pids are distinct. -/
theorem exec_switch_back {vm : Vm Word} {address : Nat} (hdistinct : vm.pids.Nodup)
    (haddress : address ∈ vm.live) (fresh : Malloc) :
    exec fresh vm (.switch (vm.procs address).pid) = .ok (true, { vm with
      current := address, ptbr := some address
      processes := (vm.processes ++ [vm.current]).erase address }) := by
  obtain ⟨next, hswitch⟩ := switchProcess_found fresh
    (List.mem_map_of_mem haddress : (vm.procs address).pid ∈ vm.pids)
  rcases switchProcess_cases hswitch with ⟨check, hcheck, hpid, rfl⟩ | ⟨hnew, -⟩
  · obtain rfl := List.inj_on_of_nodup_map hdistinct hcheck haddress hpid
    rw [exec, execReply, hswitch]
    rfl
  · exact absurd (List.mem_map_of_mem haddress) hnew

/-- What a process sees of a state that is like the one before a fork, but for the write
permissions. -/
structure Undone (vm next : Vm Word) : Prop where
  mapcounts : next.mapcounts = vm.mapcounts
  current : next.current = vm.current
  reads : ∀ vpn : Vpn, __translate next RW_READ vpn = __translate vm RW_READ vpn
  writes : ∀ vpn : Vpn, (vm.pte vm.current vpn).perm = some .rw → ∃ after,
    __accessMemory next vpn RW_WRITE = .ok (true, after) ∧
    ∀ frame, (vm.pte vm.current vpn).Maps frame → vm.mapcounts frame = 1 →
      __translate after RW_WRITE vpn = .ok (some frame.val)

/-- A write to a protected private page succeeds; the page keeps its frame if it is the only
one to map it. -/
theorem write_protected {vm : Vm Word} (hwf : vm.WellFormed) (vpn : Vpn)
    (hvalid : (vm.pte vm.current vpn).valid = true) (hpriv : (vm.pte vm.current vpn).priv = 1)
    (hprotected : (vm.pte vm.current vpn).writable = false) :
    ∃ after, __accessMemory vm vpn RW_WRITE = .ok (true, after) ∧
      ∀ frame, (vm.pte vm.current vpn).Maps frame → vm.mapcounts frame = 1 →
        __translate after RW_WRITE vpn = .ok (some frame.val) := by
  have hflags : (RW_WRITE &&& RW_READ) ^^^ (RW_WRITE &&& RW_WRITE) ≠ 0 := by decide
  obtain ⟨ret, after, haccess, heffect⟩ := exec_access hwf vpn hflags
  have hafter := heffect.wellFormed hwf
  generalize hcommand : Command.access vpn RW_WRITE = command at heffect
  cases heffect with
  | @accessHit page rw _ hwritable =>
      obtain ⟨hpage, hrw⟩ := Command.access.inj hcommand
      rw [← Fin.ext hpage, hprotected] at hwritable
      cases hwritable hrw.symm
  | @accessRefused page rw hrefused =>
      obtain ⟨hpage, -⟩ := Command.access.inj hcommand
      rw [← Fin.ext hpage, hvalid, hpriv] at hrefused
      simp at hrefused
  | @unshare page frame _ hmaps _ _ _ hwrites =>
      obtain ⟨hpage, -⟩ := Command.access.inj hcommand
      obtain rfl := Fin.ext hpage
      refine ⟨after, haccess, fun other hother _ => ?_⟩
      rw [translate_eq hafter, hwrites.self]
      simp [hvalid, hother.2]
  | @copy page frame target _ hmaps _ _ hshared _ hwrites =>
      obtain ⟨hpage, -⟩ := Command.access.inj hcommand
      obtain rfl := Fin.ext hpage
      refine ⟨after, haccess, fun other hother hone => absurd hone ?_⟩
      rwa [Fin.ext (hother.2.symm.trans hmaps.2)]
  | _ => cases hcommand

/-- The state after the fork, the frees and the switch back. -/
theorem Forks.undone {vm forked freed : Vm Word} {pid : Nat} (hwf : vm.WellFormed)
    (hforks : Forks vm forked pid) {vpns : List Vpn} (hnodup : vpns.Nodup)
    (hmapped : ∀ vpn, vpn ∈ vpns ↔ (forked.pte forked.current vpn).valid = true)
    (hfrees : Frees forked vpns freed) (hlive : vm.current ∈ freed.live) :
    Undone vm { freed with
      current := vm.current, ptbr := some vm.current
      processes := (freed.processes ++ [freed.current]).erase vm.current } := by
  have hnext := (Effect.switch hlive rfl).wellFormed hfrees.wellFormed
  generalize hback : ({ freed with
      current := vm.current, ptbr := some vm.current
      processes := (freed.processes ++ [freed.current]).erase vm.current } : Vm Word) =
      next at hnext ⊢
  have hcurrent : next.current = vm.current := hback ▸ rfl
  have hparent : ∀ vpn, next.pte next.current vpn = (vm.pte vm.current vpn).protect := by
    intro vpn
    have hbrk : vm.current ≠ forked.current := by
      rw [hforks.current]
      exact (hwf.allocated _ (mem_live_current vm)).ne
    have hfreed := hfrees.pte vm.current vpn
    rw [if_neg fun h => hbrk h.1, hforks.parent] at hfreed
    rw [hcurrent, ← hfreed, ← hback]
    rfl
  have hmapcounts : next.mapcounts = vm.mapcounts := by
    obtain ⟨new, hcounts, hshares, htotal⟩ := hforks.counts
    have hchild : ∀ frame,
        forked.mappingsOf forked.current frame = vm.mappingsOf vm.current frame := by
      intro frame
      refine congrArg Finset.card (Finset.filter_congr fun vpn _ => ?_)
      rw [hforks.current, hforks.child]
      rfl
    have hfreed : freed.mapcounts = vm.mapcounts := by
      funext frame
      rw [hfrees.mapcounts, countP_mapped hnodup _ hmapped, hchild, hcounts.mapcounts,
        foldl_shares hshares, htotal, add_sub_cancel_right]
    rw [← hback]
    exact hfreed
  constructor
  case mapcounts => exact hmapcounts
  case current => exact hcurrent
  case reads =>
    intro vpn
    rw [translate_eq hnext, translate_eq hwf, hparent]
    simp [RW_READ, RW_WRITE]
  case writes =>
    intro vpn hperm
    obtain ⟨hvalid, hpriv⟩ := Pte.perm_rw.mp hperm
    have hwrite := write_protected hnext vpn
    rw [hparent, hmapcounts] at hwrite
    exact hwrite hvalid hpriv rfl

/-- **A fork undone.** A new process is forked, frees all of its pages in any order, and its
parent is switched back to: the counts are as before, the parent reads what it has read, and
all writes to pages allocated for writing succeed. -/
theorem fork_undone {vm : Vm Word} (hreach : (machine always).Reachable vm) {pid : Nat}
    (hnew : pid ∉ vm.pids) :
    ∃ forked, exec .zeroed vm (.switch pid) = .ok (true, forked) ∧
      ∀ vpns : List Vpn, vpns.Nodup →
        (∀ vpn, vpn ∈ vpns ↔ (forked.pte forked.current vpn).valid = true) →
        ∃ next, __doSimulation .zeroed forked (vpns.map (fun vpn => .free vpn) ++
            [.switch (vm.procs vm.current).pid]) = .ok next ∧ Undone vm next := by
  have hwf := reachable_wellFormed hreach
  obtain ⟨labels, hrun⟩ := exists_simulator_run hreach
  obtain ⟨ret, forked, hexec, heffect⟩ := exec_switch hwf pid
  obtain ⟨rfl, -⟩ := exec_switch_ok hexec
  have hforks := heffect.forks fun address haddress hpid =>
    hnew (hpid ▸ List.mem_map_of_mem haddress)
  have hstep : simulator.step vm (.zeroed, .switch pid) forked := ⟨true, hexec⟩
  obtain ⟨⟨hdistinct, -⟩, -⟩ := run_populated (hrun.snoc hstep)
  refine ⟨forked, hexec, fun vpns hnodup hmapped => ?_⟩
  obtain ⟨freed, hfrees, hrest⟩ :=
    free_all (heffect.wellFormed hwf) hnodup fun vpn hvpn => (hmapped vpn).mp hvpn
  have hlive : vm.current ∈ freed.live := by
    rw [hfrees.live, hforks.live_perm.mem_iff]
    exact List.mem_cons_of_mem _ (mem_live_current vm)
  have hpid : (freed.procs vm.current).pid = (vm.procs vm.current).pid := by
    rw [hfrees.pid, hforks.pids _ (mem_live_current vm)]
  have hback := exec_switch_back (hfrees.pids ▸ hdistinct) hlive .zeroed
  rw [hpid] at hback
  refine ⟨_, ?_, hforks.undone hwf hnodup hmapped hfrees hlive⟩
  rw [hrest, __doSimulation, hback]
  rfl

/-- One page is allocated for writing, and freed by the child. -/
theorem fork_undone_alloc :
    let vm : Vm Word := Vm.init.after (.alloc 0 RW_WRITE)
    ∃ forked next, exec .zeroed vm (.switch 1) = .ok (true, forked) ∧
      __doSimulation .zeroed forked [.free 0, .switch 0] = .ok next ∧ Undone vm next := by
  intro vm
  have hadmits : (Vm.init : Vm Word).Admits always [.alloc 0 RW_WRITE] :=
    ⟨by decide, trivial, trivial⟩
  have hreach : (machine always).Reachable vm := (admits_run .nil hadmits).reachable
  have hnew : 1 ∉ vm.pids := by decide +kernel
  obtain ⟨forked, hexec, hundone⟩ := fork_undone hreach hnew
  have hforked : forked = vm.after (.switch 1) := by simp only [Vm.after, hexec]
  have hmapped : ∀ vpn : Vpn, vpn ∈ [(0 : Vpn)] ↔
      ((vm.after (.switch 1)).pte (vm.after (.switch 1)).current vpn).valid = true := by
    decide +kernel
  obtain ⟨next, hrun, hnext⟩ := hundone [0] (List.nodup_singleton 0) (hforked ▸ hmapped)
  exact ⟨forked, next, hexec, hrun, hnext⟩

end OperatingSystem.Paging
