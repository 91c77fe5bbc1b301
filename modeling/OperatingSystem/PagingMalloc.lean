import OperatingSystem.PagingPermissions

/-!
# What `malloc` leaves behind

`alloc_page` writes one entry of the directory it allocates and `switch_process`
the slots that its parent uses; nothing writes the rest of the blocks, and
`__translate` reads all of them. Two runs of one command list are compared here,
with different contents in the blocks. `Apart` relates the states of two runs of
which only one has a translation somewhere: no command closes that gap without
printing something different, so the first block allocated decides the comparison.
-/

namespace OperatingSystem.Paging

set_option linter.style.nameCheck false

/-! ## The output of a command -/

/-- Every result of a command comes with a reply. -/
theorem execReply_of_exec {fresh : Malloc} {vm next : Vm Word} {command : Command} {ret : Bool}
    (hexec : exec fresh vm command = .ok (ret, next)) :
    ∃ reply, execReply fresh vm command = .ok (reply, next) ∧ reply.success = ret := by
  rw [exec] at hexec
  rcases hreply : execReply fresh vm command with fault | ⟨reply, after⟩
  · rw [hreply] at hexec; cases hexec
  · rw [hreply] at hexec
    obtain ⟨rfl, rfl⟩ : reply.success = ret ∧ after = next := by
      simpa [Except.map, Reply.erase] using hexec
    exact ⟨reply, rfl, rfl⟩

/-! ## The results of a run -/

/-- What a run shows: its replies, what stopped it if it was stopped, and its last state. -/
structure Results where
  replies : List Reply
  fault : Option Fault
  vm : Vm Word

/-- `if (!__alloc_page(vpn, rw)) break;` -/
def Command.breaks (command : Command) (reply : Reply) : Bool :=
  match command with
  | .alloc _ _ => !reply.success
  | _ => false

/-- The loop of `__do_simulation`; `contents n` is what `malloc` leaves to command `n`. -/
def simulate (contents : Nat → Malloc) (vm : Vm Word) : List Command → Results
  | [] => ⟨[], none, vm⟩
  | command :: rest =>
    match execReply (contents 0) vm command with
    | .error fault => ⟨[], some fault, vm⟩
    | .ok (reply, next) =>
      let results :=
        if command.breaks reply then ⟨[], none, next⟩
        else simulate (fun n => contents (n + 1)) next rest
      { results with replies := reply :: results.replies }

/-- `__do_simulation` returns the last state of a run that no fault stops. -/
def Results.outcome (results : Results) : Except Fault (Vm Word) :=
  match results.fault with
  | none => .ok results.vm
  | some fault => .error fault

theorem simulate_doSimulation (fresh : Malloc) (vm : Vm Word) (commands : List Command) :
    (simulate (fun _ => fresh) vm commands).outcome = __doSimulation fresh vm commands := by
  induction commands generalizing vm with
  | nil => rfl
  | cons command rest ih =>
      rw [simulate, __doSimulation, exec]
      rcases execReply fresh vm command with fault | ⟨⟨success, pfn⟩, next⟩
      · rfl
      · cases command with
        | alloc =>
            cases success with
            | true => exact ih next
            | false => rfl
        | free | access | switch => exact ih next

/-- Process `pid` has a valid translation of `vpn` to `pfn`. -/
def Vm.Translates (vm : Vm Word) (pid : Nat) (vpn : Vpn) (pfn : Nat) : Prop :=
  ∃ address ∈ vm.live, (vm.procs address).pid = pid ∧
    (vm.pte address vpn).valid = true ∧ (vm.pte address vpn).pfn = pfn

/-- Two runs give the same results. -/
structure SameResults (first second : Results) : Prop where
  replies : first.replies = second.replies
  fault : first.fault = second.fault
  translations : ∀ pid vpn pfn,
    first.vm.Translates pid vpn pfn ↔ second.vm.Translates pid vpn pfn
  mapcounts : first.vm.mapcounts = second.vm.mapcounts

/-! ## The page that a command names -/

def Command.page : Command → Option Nat
  | .alloc vpn _ | .free vpn | .access vpn _ => some vpn
  | .switch _ => none

def Command.allocates : Command → Bool
  | .alloc _ _ => true
  | _ => false

section Page

variable {vm next : Vm Word} {command : Command} {ret : Bool} {vpn : Vpn}

theorem Writes.other {address : Nat} {other : Vpn} {pte : Pte} (hwrites : Writes vm next vpn pte)
    (hne : ¬ (address = vm.current ∧ some vpn.val = some other.val)) :
    next.pte address other = vm.pte address other := by
  rw [hwrites.pte, if_neg]
  rintro ⟨haddress, rfl⟩
  exact hne ⟨haddress, rfl⟩

/-- A command on a page leaves the other entries and all processes alone. -/
theorem Effect.frame (heffect : Effect vm command ret next) (hpage : command.page.isSome) :
    SameProcesses vm next ∧ ∀ address (other : Vpn),
      ¬ (address = vm.current ∧ command.page = some other.val) →
        next.pte address other = vm.pte address other := by
  cases heffect with
  | allocMapped | freeUnmapped | accessHit | accessRefused =>
      exact ⟨⟨rfl, rfl, rfl, rfl, fun _ => rfl⟩, fun _ _ _ => rfl⟩
  | alloc _ _ hwrites => exact ⟨hwrites.toSameProcesses, fun _ _ hne => hwrites.other hne⟩
  | allocFull _ _ hwrites => exact ⟨hwrites.toSameProcesses, fun _ _ hne => hwrites.other hne⟩
  | free _ hwrites => exact ⟨hwrites.toSameProcesses, fun _ _ hne => hwrites.other hne⟩
  | unshare _ _ _ _ hwrites => exact ⟨hwrites.toSameProcesses, fun _ _ hne => hwrites.other hne⟩
  | copy _ _ _ _ _ hwrites => exact ⟨hwrites.toSameProcesses, fun _ _ hne => hwrites.other hne⟩
  | switch | fork => cases hpage

/-- Only `alloc` succeeds on a page that is not mapped. -/
theorem Effect.on_invalid (heffect : Effect vm command ret next)
    (hpage : command.page = some vpn.val) (hinvalid : (vm.pte vm.current vpn).valid = false) :
    ret = command.allocates ∧ (command.allocates = false → next = vm) := by
  have hvpn : ∀ {other : Vpn}, some other.val = some vpn.val → other = vpn :=
    fun heq => Fin.ext (Option.some.inj heq)
  have hmapped : ∀ {other : Vpn}, some other.val = some vpn.val →
      (vm.pte vm.current other).valid = true → False := by
    intro other heq hvalid
    rw [hvpn heq, hinvalid] at hvalid
    cases hvalid
  cases heffect with
  | allocMapped hvalid => exact (hmapped hpage hvalid).elim
  | alloc | allocFull => exact ⟨rfl, fun h => by cases h⟩
  | freeUnmapped | accessRefused => exact ⟨rfl, fun _ => rfl⟩
  | accessHit hvalid => exact (hmapped hpage hvalid).elim
  | free hmaps => exact (hmapped hpage hmaps.1).elim
  | unshare hmaps | copy hmaps => exact (hmapped hpage hmaps.1).elim
  | switch | fork => cases hpage

/-- On a mapped page `alloc` fails and `free` succeeds; an access that fails changes
nothing. -/
theorem Effect.on_valid (heffect : Effect vm command ret next)
    (hpage : command.page = some vpn.val) (hvalid : (vm.pte vm.current vpn).valid = true) :
    ret = !command.allocates ∨ (command.allocates = false ∧ next = vm) := by
  have hmapped : ∀ {other : Vpn}, some other.val = some vpn.val →
      (vm.pte vm.current other).valid = false → False := by
    intro other heq hinvalid
    rw [Fin.ext (Option.some.inj heq), hvalid] at hinvalid
    cases hinvalid
  cases heffect with
  | alloc hinvalid => exact (hmapped hpage hinvalid).elim
  | allocFull hinvalid => exact (hmapped hpage hinvalid).elim
  | freeUnmapped hinvalid => exact (hmapped hpage hinvalid).elim
  | allocMapped | free | accessHit | unshare | copy => exact .inl rfl
  | accessRefused => exact .inr ⟨rfl, rfl⟩
  | switch | fork => cases hpage

end Page

/-! ## Two states with one translation between them -/

/-- The same processes, at the same addresses and under distinct pids. -/
structure Alike (first second : Vm Word) : Prop where
  current : second.current = first.current
  processes : second.processes = first.processes
  brk : second.brk = first.brk
  pids : ∀ address ∈ first.live, (second.procs address).pid = (first.procs address).pid
  distinct : ∀ a ∈ first.live, ∀ b ∈ first.live,
    (first.procs a).pid = (first.procs b).pid → a = b

/-- The first state lacks a translation of the second one. -/
structure Apart (first second : Vm Word) : Prop extends Alike first second where
  wellFormed : first.WellFormed
  wellFormed' : second.WellFormed
  gap : ∃ address ∈ first.live, ∃ vpn : Vpn,
    (first.pte address vpn).valid = false ∧ (second.pte address vpn).valid = true

section Apart

variable {first second next next' : Vm Word} {command : Command} {ret : Bool}

theorem Alike.live (halike : Alike first second) : second.live = first.live := by
  rw [Vm.live, Vm.live, halike.current, halike.processes]

theorem Alike.same (halike : Alike first second) (hfirst : SameProcesses first next)
    (hsecond : SameProcesses second next') : Alike next next' where
  current := by rw [hsecond.current, hfirst.current, halike.current]
  processes := by rw [hsecond.processes, hfirst.processes, halike.processes]
  brk := by rw [hsecond.brk, hfirst.brk, halike.brk]
  pids := by
    intro address haddress
    rw [hfirst.live] at haddress
    rw [hsecond.pid, hfirst.pid, halike.pids address haddress]
  distinct := by
    intro a ha b hb hpid
    rw [hfirst.live] at ha hb
    rw [hfirst.pid, hfirst.pid] at hpid
    exact halike.distinct a ha b hb hpid

theorem Apart.page_step (hapart : Apart first second) (hpage : command.page.isSome)
    (hfirst : Effect first command ret next) (hsecond : Effect second command ret next') :
    Apart next next' := by
  obtain ⟨hsame, hframe⟩ := hfirst.frame hpage
  obtain ⟨hsame', hframe'⟩ := hsecond.frame hpage
  refine ⟨hapart.toAlike.same hsame hsame', hfirst.wellFormed hapart.wellFormed,
    hsecond.wellFormed hapart.wellFormed', ?_⟩
  obtain ⟨address, haddress, vpn, hinvalid, hvalid⟩ := hapart.gap
  refine ⟨address, by rwa [hsame.live], vpn, ?_⟩
  by_cases hcell : address = first.current ∧ command.page = some vpn.val
  · -- one answer for the page that is mapped in one state only: nothing was done
    obtain ⟨rfl, hvpn⟩ := hcell
    obtain ⟨hret, hidle⟩ := hfirst.on_invalid hvpn hinvalid
    rcases hsecond.on_valid hvpn (by rwa [hapart.current]) with hret' | ⟨haccess, rfl⟩
    · exact absurd (hret.symm.trans hret') (by simp)
    · rw [hidle haccess]
      exact ⟨hinvalid, hvalid⟩
  · rw [hframe address vpn hcell, hframe' address vpn (by rwa [hapart.current])]
    exact ⟨hinvalid, hvalid⟩

theorem Alike.switch (halike : Alike first second) {check : Nat} (hmem : check ∈ first.live) :
    Alike
      { first with
        current := check, ptbr := some check
        processes := (first.processes ++ [first.current]).erase check }
      { second with
        current := check, ptbr := some check
        processes := (second.processes ++ [second.current]).erase check } := by
  have hlive := switch_live_perm hmem
  constructor
  case current => rfl
  case processes => rw [halike.processes, halike.current]
  case brk => exact halike.brk
  case pids => exact fun address haddress => halike.pids address (hlive.mem_iff.mp haddress)
  case distinct =>
    exact fun a ha b hb => halike.distinct a (hlive.mem_iff.mp ha) b (hlive.mem_iff.mp hb)

theorem Alike.fork {pid : Nat} (halike : Alike first second) (hfirst : Forks first next pid)
    (hsecond : Forks second next' pid) : Alike next next' := by
  constructor
  case current => rw [hsecond.current, hfirst.current, halike.brk]
  case processes =>
    rw [hsecond.processes, hfirst.processes, halike.processes, halike.current]
  case brk => rw [hsecond.brk, hfirst.brk, halike.brk]
  case pids =>
    intro address haddress
    rcases List.mem_cons.mp (hfirst.live_perm.mem_iff.mp haddress) with rfl | hold
    · rw [← halike.brk, hsecond.pid, halike.brk, hfirst.pid]
    · rw [hsecond.pids address (by rwa [halike.live]), hfirst.pids address hold,
        halike.pids address hold]
  case distinct => exact hfirst.distinct halike.distinct

/-- A fork keeps the validity of every entry. -/
theorem Forks.valid {vm : Vm Word} {pid address : Nat} (hforks : Forks vm next pid)
    (hlive : address ∈ vm.live) (vpn : Vpn) :
    (next.pte address vpn).valid = (vm.pte address vpn).valid := by
  rcases List.mem_cons.mp hlive with rfl | hlisted
  · rw [hforks.parent, protect_valid]
  · rw [hforks.others address hlisted]

theorem Apart.switch_step {pid : Nat} (hapart : Apart first second)
    (hfirst : Effect first (.switch pid) ret next)
    (hsecond : Effect second (.switch pid) ret next') : Apart next next' := by
  have hwf := hfirst.wellFormed hapart.wellFormed
  have hwf' := hsecond.wellFormed hapart.wellFormed'
  have hlive := hapart.toAlike.live
  obtain ⟨address, haddress, vpn, hinvalid, hvalid⟩ := hapart.gap
  cases hfirst with
  | @switch _ check hmem hpid =>
      cases hsecond with
      | @switch _ check' hmem' hpid' =>
          rw [hlive] at hmem'
          rw [hapart.pids check' hmem'] at hpid'
          obtain rfl := hapart.distinct check hmem check' hmem' (hpid.trans hpid'.symm)
          exact ⟨hapart.toAlike.switch hmem, hwf, hwf', address,
            (switch_live_perm hmem).mem_iff.mpr haddress, vpn, hinvalid, hvalid⟩
      | fork hforks' =>
          have hfresh := hforks'.fresh check (by rwa [hlive])
          rw [hapart.pids check hmem] at hfresh
          exact absurd hpid hfresh
  | fork hforks =>
      cases hsecond with
      | @switch _ check' hmem' hpid' =>
          rw [hlive] at hmem'
          rw [hapart.pids check' hmem'] at hpid'
          exact absurd hpid' (hforks.fresh check' hmem')
      | fork hforks' =>
          refine ⟨hapart.toAlike.fork hforks hforks', hwf, hwf', address,
            hforks.live_perm.mem_iff.mpr (List.mem_cons_of_mem _ haddress), vpn, ?_, ?_⟩
          · rwa [hforks.valid haddress]
          · rwa [hforks'.valid (by rwa [hlive])]

/-- A command that gives both runs the same answer leaves the gap. -/
theorem Apart.step (hapart : Apart first second) (hfirst : Effect first command ret next)
    (hsecond : Effect second command ret next') : Apart next next' := by
  cases command with
  | alloc | free | access => exact hapart.page_step rfl hfirst hsecond
  | switch pid => exact hapart.switch_step hfirst hsecond

/-- The gap shows in the translations. -/
theorem Apart.translations (hapart : Apart first second) :
    ¬ ∀ pid vpn pfn, first.Translates pid vpn pfn ↔ second.Translates pid vpn pfn := by
  intro hsame
  obtain ⟨address, haddress, vpn, hinvalid, hvalid⟩ := hapart.gap
  have hlive := hapart.toAlike.live
  have htranslates : second.Translates (second.procs address).pid vpn
      (second.pte address vpn).pfn :=
    ⟨address, by rwa [hlive], rfl, hvalid, rfl⟩
  obtain ⟨other, hother, hpid, hmapped, -⟩ := (hsame _ _ _).mpr htranslates
  rw [hapart.pids address haddress] at hpid
  rw [hapart.distinct other hother address haddress hpid, hinvalid] at hmapped
  cases hmapped

end Apart

/-! ## Results compared -/

section Results

variable {contents contents' : Nat → Malloc} {vm vm' next next' : Vm Word} {command : Command}
  {rest : List Command} {reply reply' : Reply}

theorem simulate_cons (hexec : execReply (contents 0) vm command = .ok (reply, next)) :
    simulate contents vm (command :: rest) =
      let results :=
        if command.breaks reply then ⟨[], none, next⟩
        else simulate (fun n => contents (n + 1)) next rest
      { results with replies := reply :: results.replies } := by
  rw [simulate, hexec]

/-- Runs with the same results give the same first reply, and the same results from
there. -/
theorem SameResults.tail
    (hsame : SameResults (simulate contents vm (command :: rest))
      (simulate contents' vm' (command :: rest)))
    (hfirst : execReply (contents 0) vm command = .ok (reply, next))
    (hsecond : execReply (contents' 0) vm' command = .ok (reply', next')) :
    reply = reply' ∧
      SameResults
        (if command.breaks reply then ⟨[], none, next⟩
          else simulate (fun n => contents (n + 1)) next rest)
        (if command.breaks reply then ⟨[], none, next'⟩
          else simulate (fun n => contents' (n + 1)) next' rest) := by
  rw [simulate_cons hfirst, simulate_cons hsecond] at hsame
  obtain ⟨rfl, hreplies⟩ := List.cons.inj hsame.replies
  exact ⟨rfl, hreplies, hsame.fault, hsame.translations, hsame.mapcounts⟩

/-- Once the states are apart the results differ, however the runs continue. -/
theorem Apart.not_same {commands : List Command} (hapart : Apart vm vm')
    (hrange : ∀ command ∈ commands, command.InRange) :
    ¬ SameResults (simulate (fun _ => .zeroed) vm commands)
      (simulate (fun _ => .zeroed) vm' commands) := by
  induction commands generalizing vm vm' with
  | nil => exact fun hsame => hapart.translations hsame.translations
  | cons command rest ih =>
      intro hsame
      have hcommand := hrange command (by simp)
      obtain ⟨ret, next, hexec, heffect⟩ := exec_effect hapart.wellFormed hcommand
      obtain ⟨ret', next', hexec', heffect'⟩ := exec_effect hapart.wellFormed' hcommand
      obtain ⟨reply, hreply, rfl⟩ := execReply_of_exec hexec
      obtain ⟨reply', hreply', rfl⟩ := execReply_of_exec hexec'
      obtain ⟨rfl, hrest⟩ := hsame.tail hreply hreply'
      have hnext := hapart.step heffect heffect'
      split at hrest
      · exact hnext.translations hrest.translations
      · exact ih hnext (fun later hlater => hrange later (by simp [hlater])) hrest

end Results

/-! ## The first block -/

/-- The blocks hold frame numbers in range wherever they hold entries. -/
structure Malloc.InRange (fresh : Malloc) : Prop where
  directory : ∀ j, (fresh.directory j).pfn < NR_PAGEFRAMES
  pagetable : ∀ i j, (fresh.pagetable.pte i j).pfn < NR_PAGEFRAMES

/-- Blocks in which every entry maps frame 0. -/
def Malloc.leftover : Malloc :=
  ⟨fun _ => ⟨true, false, 0, 0⟩, fun _ => some fun _ => ⟨true, false, 0, 0⟩⟩

theorem zeroed_inRange : Malloc.zeroed.InRange :=
  ⟨fun _ => (by decide : (0 : Nat) < NR_PAGEFRAMES),
    fun _ _ => (by decide : (0 : Nat) < NR_PAGEFRAMES)⟩

theorem leftover_inRange : Malloc.leftover.InRange :=
  ⟨fun _ => (by decide : (0 : Nat) < NR_PAGEFRAMES),
    fun _ _ => (by decide : (0 : Nat) < NR_PAGEFRAMES)⟩

@[simp] theorem init_pte (address : Nat) (vpn : Vpn) :
    (Vm.init : Vm Word).pte address vpn = .zero := rfl

/-- `alloc_page` works on the table that has its directory. -/
theorem allocPage_malloc {vm : Vm Word} (hptbr : vm.ptbr = some vm.current) (fresh : Malloc)
    (vpn : Vpn) (rw : Nat) :
    allocPage fresh vm vpn rw =
      allocPage .zeroed (vm.mallocDirectory fresh vm.current vpn.divNat) vpn rw := by
  have hagain : (vm.mallocDirectory fresh vm.current vpn.divNat).mallocDirectory .zeroed
      vm.current vpn.divNat = vm.mallocDirectory fresh vm.current vpn.divNat := by
    by_cases hmissing : ((vm.procs vm.current).pagetable vpn.divNat).isNone = true
    · simp [Vm.mallocDirectory, hmissing, Vm.setTable]
    · simp [Vm.mallocDirectory, hmissing]
  have hptbr' : (vm.mallocDirectory fresh vm.current vpn.divNat).ptbr = some vm.current := by
    rw [← hptbr, Vm.mallocDirectory]
    split <;> rfl
  simp only [allocPage, Vm.table, hptbr, hptbr', ok_bind, slot_vpn, hagain]

theorem SameProcesses.trans {vm mid next : Vm Word} (hfirst : SameProcesses vm mid)
    (hlast : SameProcesses mid next) : SameProcesses vm next :=
  ⟨hlast.current.trans hfirst.current, hlast.processes.trans hfirst.processes,
    hlast.brk.trans hfirst.brk, hlast.ptbr.trans hfirst.ptbr,
    fun address => (hlast.pid address).trans (hfirst.pid address)⟩

theorem setTable_same (vm : Vm Word) (address : Nat) (table : PageTable) :
    SameProcesses vm (vm.setTable address table) := by
  refine ⟨rfl, rfl, rfl, rfl, fun other => ?_⟩
  by_cases haddress : other = address
  · subst haddress; simp [Vm.setTable]
  · simp [Vm.setTable, haddress]

/-- `init` with its first directory, in row `i`. -/
def Vm.opened (fresh : Malloc) (i : Fin NR_PTES_PER_PAGE) : Vm Word :=
  Vm.init.mallocDirectory fresh 0 i

theorem opened_eq (fresh : Malloc) (i : Fin NR_PTES_PER_PAGE) :
    Vm.opened fresh i =
      Vm.init.setTable 0 (Function.update (fun _ => none) i (some fresh.directory)) := rfl

theorem opened_pte (fresh : Malloc) (i : Fin NR_PTES_PER_PAGE) (vpn : Vpn) :
    (Vm.opened fresh i).pte 0 vpn =
      if vpn.divNat = i then fresh.directory vpn.modNat else .zero := by
  rw [opened_eq]
  by_cases hrow : vpn.divNat = i
  · simp [Vm.pte, Vm.setTable, PageTable.pte, hrow]
  · simp [Vm.pte, Vm.setTable, PageTable.pte, hrow]

theorem opened_wellFormed {fresh : Malloc} (hfresh : fresh.InRange) (i : Fin NR_PTES_PER_PAGE) :
    (Vm.opened fresh i).WellFormed where
  ptbr := rfl
  nodup := List.nodup_singleton 0
  allocated := by
    intro address haddress
    rw [List.mem_singleton.mp haddress]
    exact Nat.one_pos
  pfn := by
    intro address haddress vpn
    have hzero : address = 0 := List.mem_singleton.mp haddress
    rw [hzero, opened_pte]
    split
    · exact hfresh.directory _
    · exact (by decide : (0 : Nat) < NR_PAGEFRAMES)

/-- The first `alloc` leaves the other entries of its directory as `malloc` gave them. -/
theorem alloc_init {fresh : Malloc} (hfresh : fresh.InRange) (vpn : Vpn) {rw : Nat}
    (hrw : rw ≠ 0) :
    ∃ next : Vm Word, exec fresh .init (.alloc vpn rw) = .ok (true, next) ∧ next.WellFormed ∧
      SameProcesses .init next ∧ ∀ other : Vpn, other ≠ vpn → other.divNat = vpn.divNat →
        next.pte 0 other = fresh.directory other.modNat := by
  have hwf := opened_wellFormed hfresh vpn.divNat
  have hfree : (Vm.opened fresh vpn.divNat).freeFrame = some 0 := rfl
  obtain ⟨next, halloc, hwrites, -⟩ := allocPage_effect hwf rw vpn hfree
  refine ⟨next, ?_, hwrites.wellFormed hwf (by simp [granted]), ?_, ?_⟩
  · have hstart : allocPage fresh .init vpn rw = .ok (0, next) :=
      (allocPage_malloc init_wellFormed.ptbr fresh vpn rw).trans halloc
    rw [exec, execReply, allocReply, if_neg hrw, translate_eq init_wellFormed, init_pte,
      if_neg (by simp [Pte.zero]), ok_bind]
    simp only [hstart, ok_bind]
    rfl
  · exact (setTable_same .init 0 _).trans hwrites.toSameProcesses
  · intro other hne hrow
    rw [hwrites.pte, if_neg fun h => hne h.2, opened_pte, if_pos hrow]

/-- The first fork takes the table of the child from `malloc`: the parent has no
directory to copy. -/
def Vm.spawned (fresh : Malloc) (pid : Nat) : Vm Word where
  procs := Function.update (Vm.init : Vm Word).procs 1 ⟨pid, fresh.pagetable⟩
  brk := 2
  current := 1
  processes := [0]
  ptbr := some 1
  mapcounts := fun _ => 0
  events := []

theorem fork_init (fresh : Malloc) {pid : Nat} (hpid : pid ≠ 0) :
    exec fresh .init (.switch pid) = .ok (true, Vm.spawned fresh pid) := by
  have hloops : ∀ rows : List (Fin NR_PTES_PER_PAGE),
      rows.foldlM (forkDirectory fresh)
          ({ (Vm.init : Vm Word) with processes := [0] }, fresh.pagetable) =
        .ok ({ (Vm.init : Vm Word) with processes := [0] }, fresh.pagetable) := by
    intro rows
    induction rows with
    | nil => rfl
    | cons i rows ih => exact ih
  have hfind :
      [0].find? (fun check => decide (((Vm.init : Vm Word).procs check).pid = pid)) = none := by
    simp [Vm.init, Ne.symm hpid]
  have hlist : (Vm.init : Vm Word).processes ++ [(Vm.init : Vm Word).current] = [0] := rfl
  simp only [exec, execReply, switchProcess, hlist, hfind, hloops, ok_bind]
  rfl

theorem mem_spawned {fresh : Malloc} {pid address : Nat} :
    address ∈ (Vm.spawned fresh pid).live ↔ address = 1 ∨ address = 0 := by
  simp [Vm.live, Vm.spawned]

theorem spawned_wellFormed {fresh : Malloc} (hfresh : fresh.InRange) (pid : Nat) :
    (Vm.spawned fresh pid).WellFormed where
  ptbr := rfl
  nodup := by simp [Vm.live, Vm.spawned]
  allocated := by simp [Vm.live, Vm.spawned]
  pfn := by
    intro address haddress vpn
    rcases mem_spawned.mp haddress with rfl | rfl
    · exact hfresh.pagetable _ _
    · exact (by decide : (0 : Nat) < NR_PAGEFRAMES)

theorem spawned_alike (fresh fresh' : Malloc) {pid : Nat} (hpid : pid ≠ 0) :
    Alike (Vm.spawned fresh pid) (Vm.spawned fresh' pid) where
  current := rfl
  processes := rfl
  brk := rfl
  pids := by
    intro address haddress
    rcases mem_spawned.mp haddress with rfl | rfl <;> rfl
  distinct := by
    intro a ha b hb heq
    rcases mem_spawned.mp ha with rfl | rfl <;> rcases mem_spawned.mp hb with rfl | rfl
    · rfl
    · exact absurd heq hpid
    · exact absurd heq.symm hpid
    · rfl

/-! ## Commands that allocate no block -/

/-- On the machine as it starts, the command reaches no call of `malloc`: it is no
`alloc` and no fork. -/
def Command.Mallocless : Command → Prop
  | .alloc _ _ => False
  | .switch pid => pid = 0
  | _ => True

theorem init_alike : Alike Vm.init Vm.init where
  current := rfl
  processes := rfl
  brk := rfl
  pids _ _ := rfl
  distinct := by simp [Vm.live, Vm.init]

/-- A command that allocates a block tells the two contents apart. -/
theorem apart_of_malloc {command : Command} (hrange : command.InRange)
    (hmalloc : ¬ command.Mallocless) :
    ∃ (ret : Bool) (next next' : Vm Word), exec .zeroed .init command = .ok (ret, next) ∧
      exec .leftover .init command = .ok (ret, next') ∧ Apart next next' := by
  cases command with
  | alloc vpn rw =>
      let page : Vpn := ⟨vpn, hrange.1⟩
      -- another entry of the same directory
      obtain ⟨j, hj⟩ := exists_ne page.modNat
      let other : Vpn := finProdFinEquiv (page.divNat, j)
      have hcell : (other.divNat, other.modNat) = (page.divNat, j) :=
        finProdFinEquiv.symm_apply_apply (page.divNat, j)
      have hrow : other.divNat = page.divNat := (Prod.mk.inj hcell).1
      have hne : other ≠ page := by
        intro heq
        rw [heq] at hcell
        exact hj (Prod.mk.inj hcell).2.symm
      obtain ⟨next, hexec, hwf, hsame, hpte⟩ := alloc_init zeroed_inRange page hrange.2
      obtain ⟨next', hexec', hwf', hsame', hpte'⟩ := alloc_init leftover_inRange page hrange.2
      refine ⟨true, next, next', hexec, hexec', init_alike.same hsame hsame', hwf, hwf', 0, ?_,
        other, ?_, ?_⟩
      · rw [hsame.live]; exact List.mem_singleton.mpr rfl
      · rw [hpte other hne hrow]; rfl
      · rw [hpte' other hne hrow]; rfl
  | switch pid =>
      have hpid : pid ≠ 0 := hmalloc
      exact ⟨true, _, _, fork_init .zeroed hpid, fork_init .leftover hpid,
        spawned_alike .zeroed .leftover hpid, spawned_wellFormed zeroed_inRange pid,
        spawned_wellFormed leftover_inRange pid, 1, mem_spawned.mpr (.inl rfl), 0, rfl, rfl⟩
  | free | access => exact absurd trivial hmalloc

/-- The reply of the starting machine to a command that allocates no block. -/
def Command.reply : Command → Reply
  | .switch _ => ⟨true, none⟩
  | _ => ⟨false, none⟩

theorem Command.Mallocless.breaks {command : Command} (hmalloc : command.Mallocless)
    (reply : Reply) : command.breaks reply = false := by
  cases command with
  | alloc => exact hmalloc.elim
  | free | access | switch => rfl

theorem exec_mallocless (fresh : Malloc) {command : Command} (hrange : command.InRange)
    (hmalloc : command.Mallocless) :
    execReply fresh (.init : Vm Word) command = .ok (command.reply, .init) := by
  have hmiss : ∀ (rw : Nat) (vpn : Vpn), __translate (.init : Vm Word) rw vpn = .ok none := by
    intro rw vpn
    simp [translate_eq init_wellFormed, Pte.zero]
  cases command with
  | alloc => exact hmalloc.elim
  | free vpn =>
      rw [execReply, freeReply, hmiss RW_READ ⟨vpn, hrange⟩]
      rfl
  | access vpn rw =>
      let page : Vpn := ⟨vpn, hrange.1⟩
      have hfault : handlePageFault (.init : Vm Word) page rw = .ok (false, .init) :=
        handlePageFault_refused init_wellFormed (.inl rfl)
      rw [execReply, accessReply, if_neg hrange.2, if_neg (not_not.mpr hrange.1),
        accessLoop, hmiss rw page, ok_bind]
      simp only [hfault, page, ok_bind]
      rfl
  | switch pid =>
      obtain rfl : pid = 0 := hmalloc
      rfl

/-- Without a block the contents do not matter. -/
theorem simulate_mallocless (contents contents' : Nat → Malloc) {commands : List Command}
    (hrange : ∀ command ∈ commands, command.InRange)
    (hmalloc : ∀ command ∈ commands, command.Mallocless) :
    simulate contents .init commands = simulate contents' .init commands := by
  induction commands generalizing contents contents' with
  | nil => rfl
  | cons command rest ih =>
      have hexec := fun fresh => exec_mallocless fresh (hrange command (by simp))
        (hmalloc command (by simp))
      have hrest := ih (fun n => contents (n + 1)) (fun n => contents' (n + 1))
        (fun later hlater => hrange later (by simp [hlater]))
        (fun later hlater => hmalloc later (by simp [hlater]))
      rw [simulate_cons (hexec (contents 0)), simulate_cons (hexec (contents' 0)), hrest]

/-- If no two contents can be told apart, no command allocates a block. -/
theorem mallocless_of_same {commands : List Command}
    (hrange : ∀ command ∈ commands, command.InRange)
    (hsame : ∀ contents contents',
      SameResults (simulate contents .init commands) (simulate contents' .init commands)) :
    ∀ command ∈ commands, command.Mallocless := by
  induction commands with
  | nil => exact fun _ hmem => absurd hmem List.not_mem_nil
  | cons command rest ih =>
      have hcommand := hrange command (by simp)
      have hrest : ∀ later ∈ rest, later.InRange := fun later hlater =>
        hrange later (by simp [hlater])
      -- contents for the first command, and for those after it
      let stream (fresh : Malloc) (contents : Nat → Malloc) : Nat → Malloc :=
        fun n => n.casesOn fresh contents
      by_cases hmalloc : command.Mallocless
      · have hexec := exec_mallocless .zeroed hcommand hmalloc
        have hlater : ∀ later ∈ rest, later.Mallocless := by
          refine ih hrest fun contents contents' => ?_
          have htail := (hsame (stream .zeroed contents) (stream .zeroed contents')).tail
            hexec hexec
          rw [hmalloc.breaks] at htail
          exact htail.2
        intro later hmem
        rcases List.mem_cons.mp hmem with rfl | hmem
        · exact hmalloc
        · exact hlater later hmem
      · exfalso
        obtain ⟨ret, next, next', hexec, hexec', hapart⟩ := apart_of_malloc hcommand hmalloc
        obtain ⟨reply, hreply, -⟩ := execReply_of_exec hexec
        obtain ⟨reply', hreply', -⟩ := execReply_of_exec hexec'
        obtain ⟨-, htail⟩ := (hsame (fun _ => .zeroed) (stream .leftover fun _ => .zeroed)).tail
          hreply hreply'
        split at htail
        · exact hapart.translations htail.translations
        · exact hapart.not_same hrest htail

/-- The results of a command list depend on what `malloc` leaves in its blocks, unless
no command of the list allocates one. -/
theorem malloc_independent {commands : List Command}
    (hrange : ∀ command ∈ commands, command.InRange) :
    (∀ contents contents',
      SameResults (simulate contents .init commands) (simulate contents' .init commands)) ↔
      ∀ command ∈ commands, command.Mallocless := by
  constructor
  · exact mallocless_of_same hrange
  · intro hmalloc contents contents'
    rw [simulate_mallocless contents contents' hrange hmalloc]
    exact ⟨rfl, rfl, fun _ _ _ => Iff.rfl, rfl⟩

theorem malloc_independent_unallocated :
    (∀ command ∈ [Command.read 0, .free 17, .switch 0], command.Mallocless) ∧
      ∀ contents contents',
        SameResults (simulate contents .init [.read 0, .free 17, .switch 0])
          (simulate contents' .init [.read 0, .free 17, .switch 0]) := by
  have hmalloc : ∀ command ∈ [Command.read 0, .free 17, .switch 0], command.Mallocless := by
    simp [Command.read, Command.Mallocless]
  exact ⟨hmalloc, (malloc_independent (by decide)).mpr hmalloc⟩

/-- `alloc 0 r` and `read 1`: the second page is never allocated, and its entry is
whatever the block held. -/
theorem leftover_read :
    (∀ command ∈ [Command.alloc 0 RW_READ, .read 1], command.InRange) ∧
      (simulate (fun _ => .zeroed) .init [.alloc 0 RW_READ, .read 1]).replies =
        [⟨true, some 0⟩, ⟨false, none⟩] ∧
      (simulate (fun _ => .leftover) .init [.alloc 0 RW_READ, .read 1]).replies =
        [⟨true, some 0⟩, ⟨true, some 0⟩] ∧
      ¬ SameResults (simulate (fun _ => .zeroed) .init [.alloc 0 RW_READ, .read 1])
        (simulate (fun _ => .leftover) .init [.alloc 0 RW_READ, .read 1]) := by
  have hzeroed : (simulate (fun _ => .zeroed) .init [.alloc 0 RW_READ, .read 1]).replies =
      [⟨true, some 0⟩, ⟨false, none⟩] := by decide +kernel
  have hleftover : (simulate (fun _ => .leftover) .init [.alloc 0 RW_READ, .read 1]).replies =
      [⟨true, some 0⟩, ⟨true, some 0⟩] := by decide +kernel
  refine ⟨by decide, hzeroed, hleftover, fun hsame => ?_⟩
  have := hsame.replies
  rw [hzeroed, hleftover] at this
  simp at this

end OperatingSystem.Paging
