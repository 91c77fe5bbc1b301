import OperatingSystem.PagingEffect

/-!
# Permissions

What the virtual memory is for: each process has a partial map from pages to
permissions, which only its own `alloc` and `free` change and which a fork copies.
The page tables refine this map. Whether an entry may be written is decided by its
private bit; the writable bit is cleared by forks and restored by faults, and says
only whether the next write will fault.
-/

namespace OperatingSystem.Paging

set_option linter.unusedSectionVars false

variable {Count : Type} [AddCommGroupWithOne Count] [DecidableEq Count]

/-! ## The abstract map -/

inductive Perm where
  | r
  | rw
deriving DecidableEq, Repr

/-- The maps of the known processes, by pid, and the pid of the current one. -/
structure Permissions where
  maps : Nat → Option (Nat → Option Perm)
  current : Nat

namespace Permissions

def init : Permissions := ⟨Function.update (fun _ => none) 0 (some fun _ => none), 0⟩

/-- The map of the current process. -/
def map (spec : Permissions) (vpn : Nat) : Option Perm :=
  (spec.maps spec.current).bind fun map => map vpn

def assign (spec : Permissions) (vpn : Nat) (perm : Option Perm) : Permissions :=
  { spec with maps :=
      Function.update spec.maps spec.current (some (Function.update spec.map vpn perm)) }

def step (spec : Permissions) : Command → Permissions
  | .alloc vpn rw => spec.assign vpn (some (if rw = RW_READ then .r else .rw))
  | .free vpn => spec.assign vpn none
  | .access _ _ => spec
  | .switch pid =>
      match spec.maps pid with
      | some _ => { spec with current := pid }
      | none =>
          { maps := Function.update spec.maps pid (spec.maps spec.current), current := pid }

theorem assign_self {spec : Permissions} {map : Nat → Option Perm}
    (hmap : spec.maps spec.current = some map) (vpn : Nat) :
    spec.assign vpn (spec.map vpn) = spec := by
  have hcurrent : spec.map = map := funext fun other => by simp [Permissions.map, hmap]
  simp [assign, hcurrent, ← hmap]

/-- A command touches the map of a known process only if that process runs. -/
theorem step_other (spec : Permissions) (command : Command) {pid : Nat}
    (hpid : pid ≠ spec.current) (hknown : spec.maps pid ≠ none) :
    (spec.step command).maps pid = spec.maps pid := by
  cases command with
  | alloc | free => simp [step, assign, hpid]
  | access => rfl
  | switch other =>
      cases hother : spec.maps other with
      | some _ => simp [step, hother]
      | none =>
          have hne : pid ≠ other := fun heq => hknown (heq ▸ hother)
          simp [step, hother, hne]

end Permissions

/-! ## The simulation relation -/

/-- The permission that an entry stands for. -/
def Pte.perm (pte : Pte) : Option Perm :=
  if pte.valid = false then none else if pte.priv = 1 then some .rw else some .r

structure Refines (vm : Vm Count) (spec : Permissions) : Prop where
  current : spec.current = (vm.procs vm.current).pid
  maps : ∀ address ∈ vm.live, ∃ map, spec.maps (vm.procs address).pid = some map ∧
    ∀ vpn : Vpn, map vpn = (vm.pte address vpn).perm
  unknown : ∀ pid, (∀ address ∈ vm.live, (vm.procs address).pid ≠ pid) → spec.maps pid = none
  distinct : ∀ a ∈ vm.live, ∀ b ∈ vm.live, (vm.procs a).pid = (vm.procs b).pid → a = b
  priv : ∀ address ∈ vm.live, ∀ vpn,
    (vm.pte address vpn).writable = true → (vm.pte address vpn).priv = 1

/-- An `alloc` is issued on an unmapped page while some frame is free. -/
def unmappedAllocs (vm : Vm Count) : Command → Prop
  | .alloc vpn _ => (∀ page : Vpn, page.val = vpn → (vm.pte vm.current page).valid = false) ∧
      ∃ frame, vm.mapcounts frame = 0
  | _ => True

@[simp] theorem protect_perm (pte : Pte) : pte.protect.perm = pte.perm := rfl

theorem granted_perm (rw pfn : Nat) :
    (granted rw pfn).perm = some (if rw = RW_READ then .r else .rw) := by
  by_cases hread : rw = RW_READ <;> simp [granted, Pte.perm, hread]

theorem init_refines : Refines (Vm.init : Vm Count) .init where
  current := rfl
  maps := by simp [Vm.live, Vm.init, Permissions.init, Vm.pte, PageTable.pte, Pte.zero, Pte.perm]
  unknown := by
    intro pid hfresh
    have hne : pid ≠ 0 := fun heq => hfresh 0 (by simp [Vm.live, Vm.init]) heq.symm
    simp [Permissions.init, hne]
  distinct := by simp [Vm.live, Vm.init]
  priv := by simp [Vm.live, Vm.init, Vm.pte, PageTable.pte, Pte.zero]

section Step

variable {vm next : Vm Count} {spec : Permissions}

theorem Refines.map_eq (hrel : Refines vm spec) (vpn : Vpn) :
    spec.map vpn = (vm.pte vm.current vpn).perm := by
  obtain ⟨map, hmap, hperm⟩ := hrel.maps vm.current (mem_live_current vm)
  simp [Permissions.map, hrel.current, hmap, hperm]

/-- A write to an entry of the current process assigns its permission. -/
theorem Refines.assign (hrel : Refines vm spec) {vpn : Vpn} {pte : Pte}
    (hwrites : Writes vm next vpn pte) (hpriv : pte.writable = true → pte.priv = 1) :
    Refines next (spec.assign vpn pte.perm) where
  current := by simp [Permissions.assign, hwrites.current, hwrites.pid, hrel.current]
  maps := by
    intro address haddress
    rw [hwrites.live] at haddress
    obtain ⟨map, hmap, hperm⟩ := hrel.maps address haddress
    by_cases hcurrent : address = vm.current
    · subst hcurrent
      refine ⟨Function.update spec.map vpn pte.perm, ?_, fun other => ?_⟩
      · simp [Permissions.assign, hwrites.pid, ← hrel.current]
      · rw [hwrites.pte]
        by_cases hother : other = vpn
        · simp [hother]
        · have hne : other.val ≠ vpn.val := fun heq => hother (Fin.ext heq)
          simp [hother, hne, hrel.map_eq]
    · refine ⟨map, ?_, fun other => ?_⟩
      · have hne : (vm.procs address).pid ≠ spec.current := fun heq =>
          hcurrent (hrel.distinct _ haddress _ (mem_live_current vm) (heq.trans hrel.current))
        simp [Permissions.assign, hwrites.pid, hne, hmap]
      · simp [hwrites.pte, hcurrent, hperm]
  unknown := by
    intro pid hfresh
    have hfresh' : ∀ address ∈ vm.live, (vm.procs address).pid ≠ pid := by
      intro address haddress
      rw [← hwrites.pid]
      exact hfresh address (hwrites.live ▸ haddress)
    have hne : pid ≠ spec.current := fun heq =>
      hfresh' _ (mem_live_current vm) (heq.trans hrel.current).symm
    simpa [Permissions.assign, hne] using hrel.unknown pid hfresh'
  distinct := by
    intro a ha b hb hpid
    rw [hwrites.live] at ha hb
    rw [hwrites.pid, hwrites.pid] at hpid
    exact hrel.distinct a ha b hb hpid
  priv := by
    intro address haddress other hwritable
    rw [hwrites.live] at haddress
    rw [hwrites.pte] at hwritable ⊢
    by_cases hcell : address = vm.current ∧ other = vpn
    · rw [if_pos hcell] at hwritable ⊢
      exact hpriv hwritable
    · rw [if_neg hcell] at hwritable ⊢
      exact hrel.priv address haddress other hwritable

/-- A write that keeps the permission of the entry keeps the abstract state. -/
theorem Refines.rewrite (hrel : Refines vm spec) {vpn : Vpn} {pte : Pte}
    (hwrites : Writes vm next vpn pte) (hpriv : pte.writable = true → pte.priv = 1)
    (hsame : pte.perm = (vm.pte vm.current vpn).perm) : Refines next spec := by
  obtain ⟨map, hmap, -⟩ := hrel.maps vm.current (mem_live_current vm)
  rw [← hrel.current] at hmap
  have hassign := hrel.assign hwrites hpriv
  rwa [hsame, ← hrel.map_eq, Permissions.assign_self hmap] at hassign

theorem Refines.switch (hrel : Refines vm spec) {check : Nat} (hmem : check ∈ vm.live) :
    Refines
      { vm with
        current := check
        ptbr := some check
        processes := (vm.processes ++ [vm.current]).erase check }
      (spec.step (.switch (vm.procs check).pid)) := by
  have hlive := switch_live_perm hmem
  obtain ⟨map, hmap, -⟩ := hrel.maps check hmem
  have hstep : spec.step (.switch (vm.procs check).pid) =
      { spec with current := (vm.procs check).pid } := by simp [Permissions.step, hmap]
  rw [hstep]
  constructor
  case current => rfl
  case maps =>
    intro address haddress
    exact hrel.maps address (hlive.mem_iff.mp haddress)
  case unknown =>
    intro pid hfresh
    exact hrel.unknown pid fun address haddress => hfresh address (hlive.mem_iff.mpr haddress)
  case distinct =>
    intro a ha b hb hpid
    exact hrel.distinct a (hlive.mem_iff.mp ha) b (hlive.mem_iff.mp hb) hpid
  case priv =>
    intro address haddress
    exact hrel.priv address (hlive.mem_iff.mp haddress)

/-- The pid of the child is new, so pids stay distinct. -/
theorem Forks.distinct {pid : Nat} (hforks : Forks vm next pid)
    (hdistinct : ∀ a ∈ vm.live, ∀ b ∈ vm.live, (vm.procs a).pid = (vm.procs b).pid → a = b) :
    ∀ a ∈ next.live, ∀ b ∈ next.live, (next.procs a).pid = (next.procs b).pid → a = b := by
  have hmem : ∀ {address}, address ∈ next.live → address = vm.brk ∨ address ∈ vm.live :=
    fun haddress => List.mem_cons.mp (hforks.live_perm.mem_iff.mp haddress)
  intro a ha b hb hpid
  rcases hmem ha with rfl | haOld <;> rcases hmem hb with rfl | hbOld
  · rfl
  · rw [hforks.pid, hforks.pids b hbOld] at hpid
    exact absurd hpid.symm (hforks.fresh b hbOld)
  · rw [hforks.pid, hforks.pids a haOld] at hpid
    exact absurd hpid (hforks.fresh a haOld)
  · rw [hforks.pids a haOld, hforks.pids b hbOld] at hpid
    exact hdistinct a haOld b hbOld hpid

theorem Refines.fork (hrel : Refines vm spec) {pid : Nat}
    (hforks : Forks vm next pid) : Refines next (spec.step (.switch pid)) := by
  have hmem : ∀ {address}, address ∈ next.live → address = vm.brk ∨ address ∈ vm.live :=
    fun haddress => List.mem_cons.mp (hforks.live_perm.mem_iff.mp haddress)
  have hkept : ∀ {address}, address ∈ vm.live → address ∈ next.live :=
    fun haddress => hforks.live_perm.mem_iff.mpr (List.mem_cons_of_mem _ haddress)
  have hunknown := hrel.unknown pid hforks.fresh
  have hstep : spec.step (.switch pid) =
      { maps := Function.update spec.maps pid (spec.maps spec.current), current := pid } := by
    simp [Permissions.step, hunknown]
  obtain ⟨parentMap, hparent, hparentPerm⟩ := hrel.maps vm.current (mem_live_current vm)
  rw [hstep]
  constructor
  case current => rw [hforks.current, hforks.pid]
  case maps =>
    intro address haddress
    rcases hmem haddress with rfl | hold
    · refine ⟨parentMap, ?_, fun vpn => ?_⟩
      · simp [hforks.pid, hrel.current, hparent]
      · rw [hforks.child, protect_perm, hparentPerm]
    · obtain ⟨map, hmap, hperm⟩ := hrel.maps address hold
      refine ⟨map, ?_, fun vpn => ?_⟩
      · simpa [hforks.pids address hold, hforks.fresh address hold] using hmap
      · rcases List.mem_cons.mp hold with rfl | hlisted
        · rw [hforks.parent, protect_perm, hperm]
        · rw [hforks.others address hlisted, hperm]
  case unknown =>
    intro other hfresh
    have hne : other ≠ pid := fun heq =>
      hfresh vm.brk (hforks.live_perm.mem_iff.mpr (by simp)) (hforks.pid.trans heq.symm)
    have hfresh' : ∀ address ∈ vm.live, (vm.procs address).pid ≠ other := by
      intro address haddress
      rw [← hforks.pids address haddress]
      exact hfresh address (hkept haddress)
    simpa [hne] using hrel.unknown other hfresh'
  case distinct => exact hforks.distinct hrel.distinct
  case priv =>
    intro address haddress vpn hwritable
    rcases hmem haddress with rfl | hold
    · simp [hforks.child] at hwritable
    · rcases List.mem_cons.mp hold with rfl | hlisted
      · simp [hforks.parent] at hwritable
      · rw [hforks.others address hlisted] at hwritable ⊢
        exact hrel.priv address hold vpn hwritable

theorem Effect.refines {command : Command} {ret : Bool} (hrel : Refines vm spec)
    (heffect : Effect vm command ret next) (hguard : unmappedAllocs vm command) :
    Refines next (spec.step command) := by
  cases heffect with
  | allocMapped hvalid =>
      have hinvalid := hguard.1 _ rfl
      rw [hvalid] at hinvalid
      cases hinvalid
  | @alloc vpn rw frame _ _ _ hwrites =>
      have hassign := hrel.assign hwrites (by simp [granted])
      rwa [granted_perm] at hassign
  | allocFull _ hfull =>
      obtain ⟨frame, hzero⟩ := hguard.2
      have hnone := List.find?_eq_none.mp hfull frame (List.mem_finRange frame)
      simp [hzero] at hnone
  | @freeUnmapped vpn hinvalid =>
      -- the page had no permission, so the abstract removal changes nothing
      obtain ⟨map, hmap, -⟩ := hrel.maps vm.current (mem_live_current vm)
      have hnone : spec.map vpn = none := by simp [hrel.map_eq, Pte.perm, hinvalid]
      have hself := Permissions.assign_self (hrel.current ▸ hmap) vpn.val
      rw [hnone] at hself
      exact (congrArg (Refines vm) hself).mpr hrel
  | free _ hwrites => exact hrel.assign hwrites (by simp [Pte.zero])
  | accessHit | accessRefused => exact hrel
  | unshare hmaps hprotected hpriv _ hwrites =>
      exact hrel.rewrite hwrites (fun _ => hpriv) rfl
  | copy hmaps hprotected hpriv _ _ hwrites =>
      exact hrel.rewrite hwrites (fun _ => hpriv) rfl
  | switch hmem hpid =>
      subst hpid
      exact hrel.switch hmem
  | fork hforks => exact hrel.fork hforks

end Step

theorem run_refines {commands : List Command} {vm : Vm Count}
    (hrun : (machine unmappedAllocs).Run commands vm) :
    Refines vm (commands.foldl Permissions.step .init) := by
  refine hrun.simulation init_refines fun state command next spec hreach hrel hstep => ?_
  have hwf := reachable_wellFormed hreach
  obtain ⟨ret, heffect⟩ := step_effect hwf hstep
  exact heffect.refines hrel hstep.2.1

/-! ## Accesses -/

theorem access_read {vm : Vm Count} (hwf : vm.WellFormed) (vpn : Vpn) :
    __accessMemory vm vpn RW_READ = .ok ((vm.pte vm.current vpn).valid, vm) := by
  cases hvalid : (vm.pte vm.current vpn).valid with
  | true => exact accessMemory_hit hwf (by decide) hvalid fun h => absurd h (by decide)
  | false => exact accessMemory_refused hwf (by decide) (.inl hvalid)

theorem Pte.perm_rw {pte : Pte} : pte.perm = some .rw ↔ pte.valid = true ∧ pte.priv = 1 := by
  unfold Pte.perm
  cases pte.valid <;> by_cases hpriv : pte.priv = 1 <;> simp [hpriv]

theorem Pte.perm_ne_none {pte : Pte} : pte.perm ≠ none ↔ pte.valid = true := by
  unfold Pte.perm
  cases pte.valid <;> by_cases hpriv : pte.priv = 1 <;> simp [hpriv]

/-- A write succeeds if and only if the entry is mapped and private. -/
theorem access_write {vm : Vm Count} {spec : Permissions} (hwf : vm.WellFormed)
    (hrel : Refines vm spec) (vpn : Vpn) :
    ∃ ret next, __accessMemory vm vpn RW_WRITE = .ok (ret, next) ∧
      (ret = true ↔ (vm.pte vm.current vpn).perm = some .rw) ∧ (ret = false → next = vm) := by
  obtain ⟨ret, next, hexec, heffect⟩ := exec_access hwf vpn (show
    (RW_WRITE &&& RW_READ) ^^^ (RW_WRITE &&& RW_WRITE) ≠ 0 by decide)
  refine ⟨ret, next, hexec, ?_⟩
  rw [Pte.perm_rw]
  generalize hcommand : Command.access vpn.val RW_WRITE = command at heffect
  cases heffect with
  | allocMapped | alloc | allocFull | freeUnmapped | free | switch | fork => cases hcommand
  | @accessHit page _ hvalid hwritable =>
      obtain ⟨hpage, hwrite⟩ := Command.access.inj hcommand
      obtain rfl : vpn = page := Fin.ext hpage
      have hpriv := hrel.priv _ (mem_live_current vm) vpn (hwritable hwrite.symm)
      simp [hvalid, hpriv]
  | @accessRefused page _ hrefused =>
      obtain ⟨hpage, -⟩ := Command.access.inj hcommand
      obtain rfl : vpn = page := Fin.ext hpage
      rcases hrefused with hinvalid | ⟨hpriv, -, -⟩
      · simp [hinvalid]
      · simp [hpriv]
  | @unshare page _ _ hmaps _ hpriv =>
      obtain ⟨hpage, -⟩ := Command.access.inj hcommand
      obtain rfl : vpn = page := Fin.ext hpage
      simp [hmaps.1, hpriv]
  | @copy page _ _ _ hmaps _ hpriv =>
      obtain ⟨hpage, -⟩ := Command.access.inj hcommand
      obtain rfl : vpn = page := Fin.ext hpage
      simp [hmaps.1, hpriv]

/-- A fault that is handled leaves an entry that translates. -/
theorem handlePageFault_true {vm next : Vm Count} (hwf : vm.WellFormed) {vpn : Vpn} {rw : Nat}
    (hfault : handlePageFault vm vpn rw = .ok (true, next)) :
    ∃ pfn, __translate next rw vpn = .ok (some pfn) := by
  have hvalid : (vm.pte vm.current vpn).valid = true := by
    by_contra hinvalid
    rw [handlePageFault_refused hwf (.inl (Bool.eq_false_iff.mpr hinvalid))] at hfault
    cases hfault
  by_cases hpriv : (vm.pte vm.current vpn).priv = 1
  · have hwritten : ∃ pte, Writes vm next vpn pte ∧ pte.pfn < NR_PAGEFRAMES ∧
        pte.valid = true ∧ pte.writable = true := by
      let frame : Frame := ⟨_, pfn_lt hwf vpn⟩
      have hframe : frame.val = (vm.pte vm.current vpn).pfn := rfl
      by_cases halone : vm.mapcounts frame = 1 ∨ vm.freeFrame = none
      · obtain ⟨after, hafter, hwrites, -⟩ :=
          handlePageFault_unshare hwf rw hvalid hpriv hframe halone
        rw [hafter] at hfault
        cases hfault
        exact ⟨_, hwrites, pfn_lt hwf vpn, hvalid, rfl⟩
      · obtain ⟨hshared, hsome⟩ := not_or.mp halone
        obtain ⟨target, htarget⟩ := Option.ne_none_iff_exists'.mp hsome
        obtain ⟨after, hafter, hwrites, -⟩ :=
          handlePageFault_copy hwf rw hvalid hpriv hframe hshared htarget
        rw [hafter] at hfault
        cases hfault
        exact ⟨_, hwrites, target.isLt, hvalid, rfl⟩
    obtain ⟨pte, hwrites, hpfn, hpteValid, hpteWritable⟩ := hwritten
    have hnext := hwrites.wellFormed hwf hpfn
    refine ⟨pte.pfn, ?_⟩
    rw [translate_eq hnext, hwrites.self, if_pos ⟨hpteValid, fun _ => hpteWritable⟩]
  · have hread : rw ≠ RW_WRITE := by
      intro hwrite
      rw [handlePageFault_refused hwf (.inr ⟨hpriv, hwrite⟩)] at hfault
      cases hfault
    rw [handlePageFault_readable hwf hvalid hpriv hread] at hfault
    cases hfault
    refine ⟨(vm.pte vm.current vpn).pfn, ?_⟩
    rw [translate_eq hwf, if_pos ⟨hvalid, fun hwrite => absurd hwrite hread⟩]

/-- **The memory refines the permission map.** After any list of commands whose
allocations are issued on unmapped pages while a frame is free, the entries of every
process agree with its map; a read succeeds on the mapped pages, a write on those with
permission `rw`, and a refused access changes nothing; a fault that is handled leaves
an entry that translates; and no command changes the map of a known process that is
not running. -/
theorem memory_refines_permissions {commands : List Command} {vm : Vm Count}
    (hrun : (machine unmappedAllocs).Run commands vm) :
    let spec := commands.foldl Permissions.step .init
    (∀ address ∈ vm.live, ∃ map, spec.maps (vm.procs address).pid = some map ∧
      ∀ vpn : Vpn, map vpn = (vm.pte address vpn).perm) ∧
    (∀ vpn : Vpn, ∃ ret next, __accessMemory vm vpn RW_READ = .ok (ret, next) ∧
      (ret = true ↔ spec.map vpn ≠ none) ∧ (ret = false → next = vm)) ∧
    (∀ vpn : Vpn, ∃ ret next, __accessMemory vm vpn RW_WRITE = .ok (ret, next) ∧
      (ret = true ↔ spec.map vpn = some .rw) ∧ (ret = false → next = vm)) ∧
    (∀ (vpn : Vpn) (rw : Nat) (next : Vm Count), handlePageFault vm vpn rw = .ok (true, next) →
      ∃ pfn, __translate next rw vpn = .ok (some pfn)) ∧
    (∀ (command : Command) (pid : Nat), pid ≠ spec.current → spec.maps pid ≠ none →
      (spec.step command).maps pid = spec.maps pid) := by
  intro spec
  have hwf := reachable_wellFormed hrun.reachable
  have hrel : Refines vm spec := run_refines hrun
  refine ⟨hrel.maps, fun vpn => ?_, fun vpn => ?_, fun vpn rw next => handlePageFault_true hwf,
    fun command pid => spec.step_other command⟩
  · refine ⟨_, vm, access_read hwf vpn, ?_, fun _ => rfl⟩
    rw [hrel.map_eq, Pte.perm_ne_none]
  · rw [hrel.map_eq]
    exact access_write hwf hrel vpn

/-- The child of a fork may write what the parent may, and may not write what the parent
may only read. -/
theorem memory_refines_permissions_fork :
    let commands := [.alloc 0 RW_WRITE, .alloc 1 RW_READ, .switch 1]
    let vm : Vm Word := commands.foldl Vm.after .init
    (∃ next, __accessMemory vm 0 RW_WRITE = .ok (true, next)) ∧
      __accessMemory vm 1 RW_WRITE = .ok (false, vm) := by
  intro commands vm
  have hadmits : (Vm.init : Vm Word).Admits unmappedAllocs commands :=
    ⟨by decide, ⟨by decide +kernel, 0, rfl⟩, by decide, ⟨by decide +kernel, 1, by decide +kernel⟩,
      trivial, trivial, trivial⟩
  have hrun : (machine unmappedAllocs).Run commands vm := admits_run .nil hadmits
  obtain ⟨-, -, hwrite, -⟩ := memory_refines_permissions hrun
  constructor
  · obtain ⟨ret, next, haccess, hret, -⟩ := hwrite 0
    rw [hret.mpr (by decide +kernel)] at haccess
    exact ⟨next, haccess⟩
  · obtain ⟨ret, next, haccess, hret, hsame⟩ := hwrite 1
    have hfalse : ret = false := Bool.eq_false_iff.mpr fun htrue =>
      absurd (hret.mp htrue) (by decide +kernel)
    rw [hfalse, hsame hfalse] at haccess
    exact haccess

end OperatingSystem.Paging
