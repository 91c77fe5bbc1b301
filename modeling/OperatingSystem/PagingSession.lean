import OperatingSystem.PagingTrace
import OperatingSystem.PagingBounds

/-!
# Sessions

What a trace does, told by the permission maps alone: which commands succeed, where the session
ends, and what stops it. The page tables, the frames and the faults of the simulator do not show,
and neither does memory that is exhausted.
-/

namespace OperatingSystem.Paging

open OperatingSystem.Parser
open Loader (fgets)

set_option linter.style.nameCheck false

/-! ## Sessions of permission maps -/

/-- What stops a command that is out of range. -/
def Command.fault? : Command → Option Fault
  | .alloc vpn rw =>
    if rw = 0 then some .assertion
    else if vpn < NR_PTES_PER_PAGE * NR_PTES_PER_PAGE then none else some .outOfBounds
  | .free vpn => if vpn < NR_PTES_PER_PAGE * NR_PTES_PER_PAGE then none else some .outOfBounds
  | .access vpn rw =>
    if (rw &&& RW_READ) ^^^ (rw &&& RW_WRITE) = 0 then some .assertion
    else if vpn < NR_PTES_PER_PAGE * NR_PTES_PER_PAGE then none else some .assertion
  | .switch _ => none

/-- The session as the maps tell it; `granted` lists which commands succeed. -/
structure Outline where
  granted : List Bool
  crash : Option Crash
  spec : Permissions

def Outline.after (ret : Bool) (outline : Outline) : Outline :=
  { outline with granted := ret :: outline.granted }

namespace Permissions

/-- Does the command succeed? Only a write needs the permission to write. -/
def grants (spec : Permissions) : Command → Bool
  | .alloc vpn _ => (spec.map vpn).isNone
  | .free vpn => (spec.map vpn).isSome
  | .access vpn rw => if rw = RW_WRITE then spec.map vpn = some .rw else (spec.map vpn).isSome
  | .switch _ => true

/-- A command that fails does nothing. -/
def advance (spec : Permissions) (command : Command) : Permissions :=
  if spec.grants command then spec.step command else spec

/-- An instruction ends the session, or it leads to the next one. -/
def session (spec : Permissions) : List Instruction → Outline
  | [] => ⟨[], none, spec⟩
  | .quiet :: rest => spec.session rest
  | .exit :: _ => ⟨[], none, spec⟩
  | .malformed :: _ => ⟨[], some (.paging .assertion), spec⟩
  | .overfull :: _ => ⟨[], some (.parser .outOfBounds), spec⟩
  | .run command :: rest =>
    match command.fault? with
    | some fault => ⟨[], some (.paging fault), spec⟩
    | none =>
      let ret := spec.grants command
      if command.allocates && !ret then ⟨[ret], none, spec⟩
      else ((spec.advance command).session rest).after ret

end Permissions

/-! ## A command -/

theorem Command.fault?_eq_none {command : Command} : command.fault? = none ↔ command.InRange := by
  cases command with
  | alloc vpn rw | access vpn rw =>
      simp only [Command.fault?, Command.InRange]
      split_ifs <;> simp_all
  | free vpn => simp [Command.fault?, Command.InRange]
  | switch pid => simp [Command.fault?, Command.InRange]

/-- A command out of range stops the simulator. -/
theorem execReply_fault {vm : Vm Word} (hptbr : vm.ptbr = some vm.current) (fresh : Malloc)
    {command : Command} {fault : Fault} (hfault : command.fault? = some fault) :
    execReply fresh vm command = .error fault := by
  cases command with
  | alloc vpn rw =>
      simp only [Command.fault?] at hfault
      split_ifs at hfault with hrw hvpn
      · simp only [execReply, allocReply, if_pos hrw]
        exact congrArg Except.error (Option.some.inj hfault)
      · have htranslate := translate_out_of_bounds hptbr RW_READ (not_lt.mp hvpn)
        simp only [execReply, allocReply, if_neg hrw, htranslate]
        exact congrArg Except.error (Option.some.inj hfault)
  | free vpn =>
      simp only [Command.fault?] at hfault
      split_ifs at hfault with hvpn
      have htranslate := translate_out_of_bounds hptbr RW_READ (not_lt.mp hvpn)
      simp only [execReply, freeReply, htranslate]
      exact congrArg Except.error (Option.some.inj hfault)
  | access vpn rw =>
      simp only [Command.fault?] at hfault
      split_ifs at hfault with hflags hvpn
      · simp only [execReply, accessReply, if_pos hflags]
        exact congrArg Except.error (Option.some.inj hfault)
      · simp only [execReply, accessReply, if_neg hflags, if_pos hvpn]
        exact congrArg Except.error (Option.some.inj hfault)
  | switch pid => cases hfault

section Step

variable {vm next : Vm Word} {spec : Permissions} {command : Command} {ret : Bool}

theorem Refines.isSome_map (hrel : Refines vm spec) (vpn : Vpn) :
    (spec.map vpn).isSome = (vm.pte vm.current vpn).valid := by
  rw [hrel.map_eq, Bool.eq_iff_iff, ← Pte.perm_ne_none, Option.isSome_iff_ne_none]

/-- The maps tell whether a command succeeds. -/
theorem Effect.grants (hrel : Refines vm spec) (heffect : Effect vm command ret next) :
    ret = spec.grants command := by
  cases heffect with
  | allocMapped hvalid =>
      rw [Permissions.grants, ← Option.not_isSome, hrel.isSome_map, hvalid]
      rfl
  | alloc hinvalid | allocFull hinvalid =>
      rw [Permissions.grants, ← Option.not_isSome, hrel.isSome_map, hinvalid]
      rfl
  | freeUnmapped hinvalid => rw [Permissions.grants, hrel.isSome_map, hinvalid]
  | free hmaps => rw [Permissions.grants, hrel.isSome_map, hmaps.1]
  | @accessHit vpn rw hvalid hwritable =>
      rw [Permissions.grants, hrel.isSome_map, hvalid]
      split_ifs with hwrite
      · have hpriv := hrel.priv _ (mem_live_current vm) vpn (hwritable hwrite)
        rw [hrel.map_eq, decide_eq_true (Pte.perm_rw.mpr ⟨hvalid, hpriv⟩)]
      · rfl
  | @accessRefused vpn rw hrefused =>
      rw [Permissions.grants, hrel.isSome_map, hrel.map_eq]
      rcases hrefused with hinvalid | ⟨hpriv, hwrite, -⟩
      · have hperm : (vm.pte vm.current vpn).perm ≠ some .rw := fun h => by
          rw [(Pte.perm_rw.mp h).1] at hinvalid
          cases hinvalid
        rw [hinvalid, decide_eq_false hperm, ite_self]
      · have hperm : (vm.pte vm.current vpn).perm ≠ some .rw := fun h => hpriv (Pte.perm_rw.mp h).2
        rw [if_pos hwrite, decide_eq_false hperm]
  | unshare hmaps _ hpriv | copy hmaps _ hpriv =>
      rw [Permissions.grants, if_pos rfl, hrel.map_eq,
        decide_eq_true (Pte.perm_rw.mpr ⟨hmaps.1, hpriv⟩)]
  | switch | fork => rfl

/-- A command does to the tables what it does to the maps, also when memory is full. -/
theorem Effect.advances (hrel : Refines vm spec) (heffect : Effect vm command ret next) :
    Refines next (spec.advance command) := by
  have hgrants := heffect.grants hrel
  rw [Permissions.advance, ← hgrants]
  cases heffect with
  | allocMapped | freeUnmapped | accessRefused => exact hrel
  | @alloc vpn rw frame _ _ _ hwrites =>
      have hassign := hrel.assign hwrites (by simp [granted])
      rwa [granted_perm] at hassign
  | @allocFull vpn rw _ _ _ hwrites =>
      have hassign := hrel.assign hwrites (by simp [granted])
      rwa [granted_perm] at hassign
  | free _ hwrites => exact hrel.assign hwrites (by simp [Pte.zero])
  | accessHit => exact hrel
  | unshare _ _ hpriv _ hwrites | copy _ _ hpriv _ _ hwrites =>
      exact hrel.rewrite hwrites (fun _ => hpriv) rfl
  | switch hmem hpid =>
      subst hpid
      exact hrel.switch hmem
  | fork hforks => exact hrel.fork hforks

end Step

/-! ## A session -/

/-- The session of the simulator is that of the maps. -/
structure Follows (session : Session) (outline : Outline) : Prop where
  replies : session.replies.map Reply.success = outline.granted
  crash : session.crash = outline.crash
  refines : Refines session.vm outline.spec
  wellFormed : session.vm.WellFormed

theorem Follows.after {session : Session} {outline : Outline} (hfollows : Follows session outline)
    (reply : Reply) : Follows (session.after (some reply)) (outline.after reply.success) where
  replies := congrArg (reply.success :: ·) hfollows.replies
  crash := hfollows.crash
  refines := hfollows.refines
  wellFormed := hfollows.wellFormed

/-- From related states the sessions go on alike. -/
theorem session_follows {vm : Vm Word} {spec : Permissions} (hwf : vm.WellFormed)
    (hrel : Refines vm spec) (instructions : List Instruction) :
    Follows (runInstructions (fun _ => .zeroed) vm instructions) (spec.session instructions) := by
  induction instructions generalizing vm spec with
  | nil => exact ⟨rfl, rfl, hrel, hwf⟩
  | cons instruction rest ih =>
      cases instruction with
      | quiet => exact ih hwf hrel
      | exit | malformed | overfull => exact ⟨rfl, rfl, hrel, hwf⟩
      | run command =>
          rw [runInstructions, Permissions.session, Instruction.perform]
          cases hfault : command.fault? with
          | some fault =>
              simp only [execReply_fault hwf.ptbr .zeroed hfault]
              exact ⟨rfl, rfl, hrel, hwf⟩
          | none =>
              obtain ⟨ret, next, hexec, heffect⟩ :=
                exec_effect hwf (Command.fault?_eq_none.mp hfault)
              obtain ⟨reply, hreply, rfl⟩ := execReply_of_exec hexec
              have hgrants := heffect.grants hrel
              have hnext := heffect.advances hrel
              have hbreaks : command.breaks reply = (command.allocates && !reply.success) := by
                cases command <;> rfl
              simp only [hreply, ← hgrants, ok_mapError, ok_bind, hbreaks]
              by_cases hleave : (command.allocates && !reply.success) = true
              · have hrefused : reply.success = false := by
                  simpa using (Bool.and_eq_true_iff.mp hleave).2
                rw [Permissions.advance, ← hgrants, hrefused] at hnext
                rw [if_pos hleave]
                simp only [hleave]
                exact ⟨rfl, rfl, hnext, heffect.wellFormed hwf⟩
              · rw [if_neg hleave]
                simp only [Bool.eq_false_iff.mpr hleave]
                exact (ih (heffect.wellFormed hwf) hnext).after reply

/-- **A session shows the permission maps.** Whatever the input holds, which commands succeed,
where the session ends and what stops it are told by the maps of the processes, which the tables
agree with at the end. -/
theorem session_refines (input : List Char) :
    Follows (__doSimulationOf (fun _ => .zeroed) input)
      (Permissions.init.session ((fgets MAX_COMMAND_LEN [] input).map Instruction.ofLine)) := by
  rw [__doSimulationOf, simulateLines_eq]
  exact session_follows init_wellFormed init_refines _

end OperatingSystem.Paging
