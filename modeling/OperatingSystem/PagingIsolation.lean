import OperatingSystem.PagingCounts

/-!
# Copy-on-write isolation

The invariant behind isolation: a writable entry maps a frame whose count is one.
Where the counts are exact it says that the entry is the only one that maps the frame.
-/

namespace OperatingSystem.Paging

set_option linter.unusedSectionVars false

variable {Count : Type} [AddCommGroupWithOne Count] [DecidableEq Count]

/-- A write to this page faults and needs a frame for a copy. -/
def Vm.CopiesOnWrite (vm : Vm Count) (vpn : Vpn) : Prop :=
  ∃ frame, (vm.pte vm.current vpn).Maps frame ∧ (vm.pte vm.current vpn).writable = false ∧
    (vm.pte vm.current vpn).priv = 1 ∧ vm.mapcounts frame ≠ 1

/-- Every `alloc` and every copy-on-write fault finds a frame. -/
def framesFound (vm : Vm Count) : Command → Prop
  | .alloc _ _ => ∃ frame, vm.mapcounts frame = 0
  | .access vpn rw => rw = RW_WRITE →
      (∃ page : Vpn, page.val = vpn ∧ vm.CopiesOnWrite page) → ∃ frame, vm.mapcounts frame = 0
  | _ => True

/-- A writable entry is the only mapping of its frame. -/
def Vm.WritableAlone (vm : Vm Count) : Prop :=
  ∀ address ∈ vm.live, ∀ vpn frame, (vm.pte address vpn).Maps frame →
    (vm.pte address vpn).writable = true → vm.mapcounts frame = 1

/-- Two entries that map one frame are both read-only. -/
def Vm.Isolated (vm : Vm Count) : Prop :=
  ∀ a ∈ vm.live, ∀ b ∈ vm.live, ∀ u v : Vpn, (a, u) ≠ (b, v) →
    (vm.pte a u).valid = true → (vm.pte b v).valid = true → (vm.pte a u).pfn = (vm.pte b v).pfn →
    (vm.pte a u).writable = false ∧ (vm.pte b v).writable = false

theorem allocFinds_of_framesFound {vm : Vm Count} {command : Command}
    (hfound : framesFound vm command) : allocFinds vm command := by
  cases command with
  | alloc => exact hfound
  | free | access | switch => trivial

/-- Two entries that map one frame are counted twice. -/
theorem two_le_mappings {vm : Vm Count} {a b : Nat} (ha : a ∈ vm.live)
    (hb : b ∈ vm.live) {u v : Vpn} (hne : (a, u) ≠ (b, v)) {frame : Frame}
    (hu : (vm.pte a u).Maps frame) (hv : (vm.pte b v).Maps frame) : 2 ≤ vm.mappings frame := by
  by_cases hab : a = b
  · subst hab
    have huv : u ≠ v := fun heq => hne (by rw [heq])
    have htwo : 2 ≤ vm.mappingsOf a frame :=
      Finset.one_lt_card.mpr ⟨u, by simpa using hu, v, by simpa using hv, huv⟩
    exact htwo.trans (mappingsOf_le ha frame)
  · have hperm := List.perm_cons_erase ha
    have hrest : b ∈ vm.live.erase a := (List.mem_erase_of_ne (Ne.symm hab)).mpr hb
    have hsum : vm.mappings frame = vm.mappingsOf a frame +
        ((vm.live.erase a).map fun address => vm.mappingsOf address frame).sum := by
      rw [Vm.mappings, (hperm.map _).sum_eq, List.map_cons, List.sum_cons]
    have hone := mappingsOf_pos hu
    have hle : vm.mappingsOf b frame ≤
        ((vm.live.erase a).map fun address => vm.mappingsOf address frame).sum :=
      List.le_sum_of_mem (List.mem_map_of_mem hrest)
    have htwo := mappingsOf_pos hv
    omega

section Exact

variable [LT Count]

/-- No two entries map a frame whose count is one. -/
theorem Vm.Exact.alone {vm : Vm Count} (hexact : vm.Exact) {frame : Frame}
    (hone : vm.mapcounts frame = 1) : ¬ 2 ≤ vm.mappings frame := by
  rw [hexact.accurate] at hone
  rw [(hexact.tells frame).one hone]
  exact Nat.not_succ_le_self 1

omit [LT Count] in
/-- An entry may be written if the count of what it maps is one afterwards, should it be writable,
and if the counts of what the others map stay one. -/
theorem Writes.writableAlone {vm next : Vm Count} {vpn : Vpn} {pte : Pte}
    (hwrites : Writes vm next vpn pte) (halone : vm.WritableAlone)
    (hown : ∀ target, pte.Maps target → pte.writable = true → next.mapcounts target = 1)
    (hothers : ∀ address ∈ vm.live, ∀ other target, (address, other) ≠ (vm.current, vpn) →
      (vm.pte address other).Maps target → vm.mapcounts target = 1 →
      next.mapcounts target = 1) : next.WritableAlone := by
  intro address haddress other target hmaps hwritable
  rw [hwrites.live] at haddress
  rw [hwrites.pte] at hmaps hwritable
  by_cases hcell : address = vm.current ∧ other = vpn
  · rw [if_pos hcell] at hmaps hwritable
    exact hown target hmaps hwritable
  · rw [if_neg hcell] at hmaps hwritable
    exact hothers address haddress other target (fun heq => hcell (Prod.mk.inj heq)) hmaps
      (halone address haddress other target hmaps hwritable)

/-- A fork leaves no writable entry in the parent and in the child, and it counts no mapping of
what another process may write. -/
theorem Forks.writableAlone {vm next : Vm Count} {pid : Nat} (hwf : vm.WellFormed)
    (hexact : vm.Exact) (halone : vm.WritableAlone) (hforks : Forks vm next pid) :
    next.WritableAlone := by
  intro address haddress vpn frame hmaps hwritable
  rcases List.mem_cons.mp (hforks.live_perm.mem_iff.mp haddress) with rfl | hold
  · rw [hforks.child] at hwritable
    simp at hwritable
  · rcases List.mem_cons.mp hold with rfl | hlisted
    · rw [hforks.parent] at hwritable
      simp at hwritable
    · rw [hforks.others address hlisted] at hmaps hwritable
      have hone := halone address hold vpn frame hmaps hwritable
      obtain ⟨new, hcounts, hshares, htotal⟩ := hforks.counts
      have hnone : vm.mappingsOf vm.current frame = 0 := by
        refine Finset.card_eq_zero.mpr (Finset.filter_eq_empty_iff.mpr fun other _ hother => ?_)
        have hne : address ≠ vm.current := fun heq =>
          (List.nodup_cons.mp hwf.nodup).1 (heq ▸ hlisted)
        exact hexact.alone hone (two_le_mappings hold (mem_live_current vm)
          (fun heq => hne (Prod.mk.inj heq).1) hmaps hother)
      rw [hcounts.mapcounts, foldl_shares hshares, htotal, hnone, hone, Nat.cast_zero, add_zero]

theorem Effect.writableAlone {vm next : Vm Count} {command : Command} {ret : Bool}
    (hwf : vm.WellFormed) (hexact : vm.Exact) (halone : vm.WritableAlone)
    (heffect : Effect vm command ret next) (hfound : framesFound vm command) :
    next.WritableAlone := by
  have hcurrent := mem_live_current vm
  cases heffect with
  | allocMapped | freeUnmapped | accessHit | accessRefused => exact halone
  | @alloc vpn rw frame _ hinvalid hframe hwrites hcounts =>
      apply hwrites.writableAlone halone
      · intro target hmaps _
        have heq : frame = target := Fin.ext hmaps.2
        simp [hcounts.mapcounts, MapEvent.apply, heq]
      · intro address haddress other target _ hmaps hone
        have hne : target ≠ frame := fun heq =>
          hexact.unmapped (freeFrame_zero hframe) haddress other (heq ▸ hmaps)
        simpa [hcounts.mapcounts, MapEvent.apply, hne] using hone
  | allocFull _ hfull =>
      obtain ⟨frame, hzero⟩ := hfound
      exact absurd hzero (freeFrame_none hfull frame)
  | @free vpn frame _ hfreed hwrites hcounts =>
      apply hwrites.writableAlone halone
      · intro target _ hwritable
        simp [Pte.zero] at hwritable
      · intro address haddress other target hcell hmaps hone
        have hne : target ≠ frame := by
          rintro rfl
          exact hexact.alone hone (two_le_mappings haddress hcurrent hcell hmaps hfreed)
        simpa [hcounts.mapcounts, MapEvent.apply, hne] using hone
  | @unshare vpn frame _ hshared hprotected hpriv hcase hwrites hcounts =>
      have hsame : next.mapcounts = vm.mapcounts := hcounts.mapcounts
      apply hwrites.writableAlone halone
      · intro target hmaps _
        have heq : frame = target := Fin.ext (hshared.2.symm.trans hmaps.2)
        rw [hsame, ← heq]
        by_contra hcount
        obtain ⟨free, hzero⟩ := hfound rfl ⟨vpn, rfl, frame, hshared, hprotected, hpriv, hcount⟩
        exact freeFrame_none (hcase.resolve_left hcount) free hzero
      · intro _ _ _ _ _ _ hone
        rwa [hsame]
  | @copy vpn frame fresh _ hmoved hprotected _ hshared htarget hwrites hcounts =>
      have hzero := freeFrame_zero htarget
      have hfresh : fresh ≠ frame := fun heq =>
        hexact.unmapped hzero hcurrent vpn (heq ▸ hmoved)
      apply hwrites.writableAlone halone
      · intro target hmaps _
        have heq : fresh = target := Fin.ext hmaps.2
        simp [hcounts.mapcounts, MapEvent.apply, ← heq, hfresh, hzero]
      · intro address haddress other target _ hmaps hone
        have hnotFresh : target ≠ fresh := fun heq =>
          hexact.unmapped hzero haddress other (heq ▸ hmaps)
        have hnotOld : target ≠ frame := fun heq => hshared (heq ▸ hone)
        simpa [hcounts.mapcounts, MapEvent.apply, hnotFresh, hnotOld] using hone
  | switch hmem =>
      intro address haddress
      exact halone address ((switch_live_perm hmem).mem_iff.mp haddress)
  | fork hforks => exact hforks.writableAlone hwf hexact halone

/-- What admits a command in one way admits it in another. -/
theorem reachable_allocFinds {vm : Vm Count} (hreach : (machine framesFound).Reachable vm) :
    (machine allocFinds).Reachable vm := by
  apply hreach.invariant fun state => (machine allocFinds).Reachable state
  · exact Machine.reachable_init
  · rintro state command next - hstate ⟨hrange, hfound, hexec⟩
    exact hstate.step ⟨hrange, allocFinds_of_framesFound hfound, hexec⟩

theorem reachable_writableAlone {bound : Nat} (htells : ∀ n ≤ bound, Tells Count n)
    {vm : Vm Count} (hreach : (machine framesFound).Reachable vm)
    (hlive : vm.live.length ≤ bound) : vm.WritableAlone := by
  revert hlive
  refine hreach.invariant (fun state => state.live.length ≤ bound → state.WritableAlone) ?_ ?_
  · intro _ address _ vpn frame hmaps
    simp [machine, Vm.pte, Vm.init, PageTable.pte, Pte.Maps, Pte.zero] at hmaps
  · rintro state command next hstate hinv hstep hlive
    have hwf := reachable_wellFormed hstate
    obtain ⟨ret, heffect⟩ := step_effect hwf hstep
    have hle := heffect.live_le.trans hlive
    obtain ⟨hexact, -⟩ := allocFinds_exact htells (reachable_allocFinds hstate) hle
    exact heffect.writableAlone hwf hexact (hinv hle) hstep.2.1

/-- A writable entry that maps a frame alone shares it with nobody. -/
theorem Vm.Exact.isolated {vm : Vm Count} (hwf : vm.WellFormed) (hexact : vm.Exact)
    (halone : vm.WritableAlone) : vm.Isolated := by
  intro a ha b hb u v hne hu hv hpfn
  let frame : Frame := ⟨_, hwf.pfn a ha u⟩
  have hmapsU : (vm.pte a u).Maps frame := ⟨hu, rfl⟩
  have hmapsV : (vm.pte b v).Maps frame := ⟨hv, hpfn.symm⟩
  have htwo := two_le_mappings ha hb hne hmapsU hmapsV
  constructor
  · refine Bool.eq_false_iff.mpr fun hwritable => ?_
    exact hexact.alone (halone a ha u frame hmapsU hwritable) htwo
  · refine Bool.eq_false_iff.mpr fun hwritable => ?_
    exact hexact.alone (halone b hb v frame hmapsV hwritable) htwo

theorem reachable_isolated {vm : Vm Count} (hreach : (machine framesFound).Reachable vm)
    (htells : ∀ n ≤ vm.live.length, Tells Count n) : vm.Isolated := by
  obtain ⟨hexact, -⟩ := allocFinds_exact htells (reachable_allocFinds hreach) le_rfl
  exact hexact.isolated (reachable_wellFormed hreach)
    (reachable_writableAlone htells hreach le_rfl)

end Exact

/-- **Copy-on-write isolation.** In every state of a run whose allocations and copies
find a frame, two entries that map one frame are both read-only. On the machine the
counts tell this as long as there are fewer than 2^32 processes. -/
theorem cow_isolation :
    (∀ vm : Vm Int, (machine framesFound).Reachable vm → vm.Isolated) ∧
    (∀ vm : Vm Word, (machine framesFound).Reachable vm → vm.live.length < 2 ^ 32 →
      vm.Isolated) :=
  ⟨fun _ hreach => reachable_isolated hreach fun n _ => tells_int n,
    fun _ hreach hlive => reachable_isolated hreach fun _ hn => tells_word (hn.trans_lt hlive)⟩

/-- After a fork the page that parent and child share is read-only in both. -/
theorem cow_isolation_fork :
    let vm : Vm Word := [.alloc 0 RW_WRITE, .switch 1].foldl Vm.after .init
    (vm.pte 0 0).writable = false ∧ (vm.pte 1 0).writable = false := by
  intro vm
  have hadmits : (Vm.init : Vm Word).Admits framesFound [.alloc 0 RW_WRITE, .switch 1] :=
    ⟨by decide, ⟨0, rfl⟩, trivial, trivial, trivial⟩
  have hreach : (machine framesFound).Reachable vm := (admits_run .nil hadmits).reachable
  exact cow_isolation.2 vm hreach (by decide +kernel) 0 (by decide +kernel) 1 (by decide +kernel)
    0 0 (by decide) (by decide +kernel) (by decide +kernel) (by decide +kernel)

end OperatingSystem.Paging
