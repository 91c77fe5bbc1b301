import OperatingSystem.PagingEffect
import Mathlib.Algebra.Order.BigOperators.Group.List
import Mathlib.Algebra.Order.Group.Nat

/-!
# Map counts

A state is accurate when every map count is the number of entries that map the
frame, over the current process and the listed ones. Accuracy is kept by every
command except an `alloc` that finds no frame, whatever the counts are made of.

The code asks a count whether it is zero, one or more. An integer tells that of any
number, and a word of the numbers below 2^32; a process maps a frame at most once, so
the words are right as long as there are fewer processes. Where they are right the
events of a run show more: no decrement meets a zero, and a frame is handed out only
while nobody maps it.
-/

namespace OperatingSystem.Paging

set_option linter.unusedSectionVars false

variable {Count : Type} [AddCommGroupWithOne Count] [DecidableEq Count]

/-- The number of (process, vpn) pairs that map `frame`. -/
def Vm.mappings (vm : Vm Count) (frame : Frame) : Nat :=
  (vm.live.map fun address => vm.mappingsOf address frame).sum

def Vm.Accurate (vm : Vm Count) : Prop := ∀ frame, vm.mapcounts frame = vm.mappings frame

/-- The count of `n` things tells whether there is none, one or more of them. -/
structure Tells (Count : Type) [AddCommGroupWithOne Count] [LT Count] (n : Nat) : Prop where
  zero : (n : Count) = 0 → n = 0
  one : (n : Count) = 1 → n = 1
  pos : 0 < n → (0 : Count) < n

/-- The counts are accurate, and what they tell is true of the mappings. -/
structure Vm.Exact [LT Count] (vm : Vm Count) : Prop where
  accurate : vm.Accurate
  tells : ∀ frame, Tells Count (vm.mappings frame)

/-- No decrement among the events is executed on zero. -/
def SafeDrops [LT Count] (counts : Frame → Count) (events : List MapEvent) : Prop :=
  ∀ before frame after, events = before ++ MapEvent.drop frame :: after →
    0 < before.foldl MapEvent.apply counts frame

/-- The events give `frame` to an entry that had another one or none. -/
def HandsOut (events : List MapEvent) (frame : Frame) : Prop :=
  .assign frame ∈ events ∨ .copy frame ∈ events

/-- Every command is admitted. -/
def always : Vm Count → Command → Prop := fun _ _ => True

/-- Every `alloc` finds a frame. -/
def allocFinds (vm : Vm Count) : Command → Prop
  | .alloc _ _ => ∃ frame, vm.mapcounts frame = 0
  | _ => True

/-! ## Counting entries -/

theorem mappings_switch {vm : Vm Count} {check : Nat} (hmem : check ∈ vm.live) (frame : Frame) :
    Vm.mappings { vm with
      current := check
      ptbr := some check
      processes := (vm.processes ++ [vm.current]).erase check } frame = vm.mappings frame :=
  ((switch_live_perm hmem).map _).sum_eq

theorem mappingsOf_congr {vm next : Vm Count} {address address' : Nat} {frame : Frame}
    (hcell : ∀ vpn, (next.pte address' vpn).Maps frame ↔ (vm.pte address vpn).Maps frame) :
    next.mappingsOf address' frame = vm.mappingsOf address frame :=
  congrArg Finset.card (Finset.filter_congr fun vpn _ => hcell vpn)

/-- One entry of the current process changes its own count only. -/
theorem Writes.mappings {vm next : Vm Count} {vpn : Vpn} {pte : Pte} (hwf : vm.WellFormed)
    (hwrites : Writes vm next vpn pte) (frame : Frame) :
    next.mappings frame + (vm.pte vm.current vpn).mapping frame =
      vm.mappings frame + pte.mapping frame := by
  have hothers : (vm.processes.map fun address => next.mappingsOf address frame) =
      vm.processes.map fun address => vm.mappingsOf address frame := by
    apply List.map_congr_left
    intro address haddress
    have hne : address ≠ vm.current := fun heq =>
      (List.nodup_cons.mp hwf.nodup).1 (heq ▸ haddress)
    exact mappingsOf_congr fun other => by rw [hwrites.pte, if_neg fun h => hne h.1]
  have hcurrent := card_filter_update
    (fun other => (next.pte vm.current other).Maps frame)
    (fun other => (vm.pte vm.current other).Maps frame) vpn (fun other hne => by
      rw [hwrites.pte, if_neg fun h => hne h.2])
  have hself : next.pte vm.current vpn = pte := by rw [hwrites.pte, if_pos ⟨rfl, rfl⟩]
  simp only [hself] at hcurrent
  simp only [Vm.mappings, Vm.live, hwrites.current, hwrites.processes, List.map_cons,
    List.sum_cons, hothers]
  unfold Vm.mappingsOf Pte.mapping
  omega

theorem Forks.mappings {vm next : Vm Count} {pid : Nat} (hforks : Forks vm next pid)
    (frame : Frame) :
    next.mappings frame = vm.mappings frame + vm.mappingsOf vm.current frame := by
  have hsame : ∀ address ∈ vm.live, next.mappingsOf address frame =
      vm.mappingsOf address frame := by
    intro address haddress
    rcases List.mem_cons.mp haddress with rfl | hlisted
    · exact mappingsOf_congr fun vpn => by rw [hforks.parent]; exact Iff.rfl
    · exact mappingsOf_congr fun vpn => by rw [hforks.others address hlisted]
  have hchild : next.mappingsOf vm.brk frame = vm.mappingsOf vm.current frame :=
    mappingsOf_congr fun vpn => by rw [hforks.child]; exact Iff.rfl
  calc next.mappings frame
      = ((vm.brk :: vm.live).map fun address => next.mappingsOf address frame).sum :=
        (hforks.live_perm.map _).sum_eq
    _ = vm.mappingsOf vm.current frame + vm.mappings frame := by
        rw [List.map_cons, List.sum_cons, hchild, List.map_congr_left hsame]
        rfl
    _ = vm.mappings frame + vm.mappingsOf vm.current frame := Nat.add_comm _ _

/-- A process has at most as many mappings of a frame as there are in all. -/
theorem mappingsOf_le {vm : Vm Count} {address : Nat} (haddress : address ∈ vm.live)
    (frame : Frame) : vm.mappingsOf address frame ≤ vm.mappings frame :=
  List.le_sum_of_mem (List.mem_map_of_mem haddress)

theorem mappingsOf_pos {vm : Vm Count} {address : Nat} {vpn : Vpn} {frame : Frame}
    (hmaps : (vm.pte address vpn).Maps frame) : 0 < vm.mappingsOf address frame :=
  Finset.card_pos.mpr ⟨vpn, by simpa using hmaps⟩

theorem freeFrame_zero {vm : Vm Count} {frame : Frame} (hframe : vm.freeFrame = some frame) :
    vm.mapcounts frame = 0 := by
  simpa using List.find?_some hframe

theorem freeFrame_none {vm : Vm Count} (hfull : vm.freeFrame = none) (frame : Frame) :
    vm.mapcounts frame ≠ 0 := by
  simpa using List.find?_eq_none.mp hfull frame (List.mem_finRange frame)

section Tells

variable [LT Count]

/-- A mapped frame has a positive count. -/
theorem Vm.Exact.pos {vm : Vm Count} (hexact : vm.Exact) {vpn : Vpn} {frame : Frame}
    (hmaps : (vm.pte vm.current vpn).Maps frame) : 0 < vm.mapcounts frame := by
  have hone := mappingsOf_pos hmaps
  have hle := mappingsOf_le (mem_live_current vm) frame
  rw [hexact.accurate]
  exact (hexact.tells frame).pos (hone.trans_le hle)

theorem Vm.Exact.mappings_zero {vm : Vm Count} (hexact : vm.Exact) {frame : Frame}
    (hzero : vm.mapcounts frame = 0) : vm.mappings frame = 0 := by
  rw [hexact.accurate] at hzero
  exact (hexact.tells frame).zero hzero

/-- Nobody maps a frame whose count is zero. -/
theorem Vm.Exact.unmapped {vm : Vm Count} (hexact : vm.Exact) {frame : Frame}
    (hzero : vm.mapcounts frame = 0) {address : Nat} (haddress : address ∈ vm.live) (vpn : Vpn) :
    ¬ (vm.pte address vpn).Maps frame := by
  intro hmaps
  have hpos := mappingsOf_pos hmaps
  have hle := mappingsOf_le haddress frame
  exact absurd (hexact.mappings_zero hzero) (hpos.trans_le hle).ne'

theorem tells_int (n : Nat) : Tells Int n where
  zero := Int.natCast_eq_zero.mp
  one := fun hone => by exact_mod_cast hone
  pos := Int.natCast_pos.mpr

theorem tells_word {n : Nat} (hlt : n < 2 ^ 32) : Tells Word n := by
  have hvalue : (n : Word).toNat = n := Nat.mod_eq_of_lt hlt
  constructor
  case zero =>
    intro hzero
    rw [← hvalue, hzero]
    rfl
  case one =>
    intro hone
    rw [← hvalue, hone]
    rfl
  case pos =>
    intro hpos
    rw [BitVec.lt_def, hvalue]
    exact hpos

end Tells

/-! ## Accuracy is kept -/

theorem foldl_shares {new : List MapEvent} (hshares : ∀ event ∈ new, ∃ frame, event = .share frame)
    (counts : Frame → Count) (frame : Frame) :
    new.foldl MapEvent.apply counts frame = counts frame + new.count (.share frame) := by
  induction new generalizing counts with
  | nil => simp
  | cons event rest ih =>
      obtain ⟨shared, rfl⟩ := hshares event (by simp)
      rw [List.foldl_cons, ih fun event hevent => hshares event (by simp [hevent])]
      by_cases heq : frame = shared
      · subst heq
        simp only [MapEvent.apply, Function.update_self, List.count_cons_self, Nat.cast_succ]
        rw [add_assoc, add_comm 1]
      · simp [MapEvent.apply, heq, Ne.symm heq]

/-- The writes to a count, and the changes to an entry, move it by one in the same direction. -/
theorem apply_drop (counts : Frame → Count) (frame other : Frame) :
    MapEvent.apply counts (.drop frame) other =
      counts other - ((if frame = other then 1 else 0 : Nat) : Count) := by
  by_cases heq : frame = other
  · simp [MapEvent.apply, heq]
  · simp [MapEvent.apply, heq, Ne.symm heq]

theorem apply_copy (counts : Frame → Count) (frame other : Frame) :
    MapEvent.apply counts (.copy frame) other =
      counts other + ((if frame = other then 1 else 0 : Nat) : Count) := by
  by_cases heq : frame = other
  · simp [MapEvent.apply, heq]
  · simp [MapEvent.apply, heq, Ne.symm heq]

theorem Effect.accurate {vm next : Vm Count} {command : Command} {ret : Bool} (hwf : vm.WellFormed)
    (haccurate : vm.Accurate) (heffect : Effect vm command ret next)
    (hfinds : allocFinds vm command) : next.Accurate := by
  cases heffect with
  | allocMapped | freeUnmapped | accessHit | accessRefused => exact haccurate
  | @alloc vpn rw frame _ hinvalid hframe hwrites hcounts =>
      intro other
      have hgranted : (granted rw frame.val).Maps frame := ⟨rfl, rfl⟩
      have hsum := hwrites.mappings hwf other
      rw [mapping_of_invalid hinvalid, mapping_of_maps hgranted, add_zero] at hsum
      rw [hcounts.mapcounts, hsum, Nat.cast_add, ← haccurate]
      by_cases heq : frame = other
      · subst heq
        simp [MapEvent.apply, freeFrame_zero hframe]
      · simp [MapEvent.apply, heq, Ne.symm heq]
  | allocFull _ hfull =>
      obtain ⟨frame, hzero⟩ := hfinds
      exact absurd hzero (freeFrame_none hfull frame)
  | @free vpn frame _ hmaps hwrites hcounts =>
      intro other
      have hsum := hwrites.mappings hwf other
      rw [zero_mapping, mapping_of_maps hmaps, add_zero] at hsum
      rw [hcounts.mapcounts, List.foldl_cons, List.foldl_nil, apply_drop, haccurate, ← hsum,
        Nat.cast_add, add_sub_cancel_right]
  | @unshare vpn frame _ hmaps _ _ _ hwrites hcounts =>
      intro other
      have hkept : ({ vm.pte vm.current vpn with writable := true } : Pte).Maps frame := hmaps
      have hsum := hwrites.mappings hwf other
      rw [mapping_of_maps hmaps, mapping_of_maps hkept] at hsum
      rw [hcounts.mapcounts, List.foldl_nil, haccurate other, Nat.add_right_cancel hsum]
  | @copy vpn frame target _ hmaps _ _ _ htarget hwrites hcounts =>
      intro other
      have hmoved : ({ vm.pte vm.current vpn with writable := true, pfn := target.val } :
          Pte).Maps target := ⟨hmaps.1, rfl⟩
      have hsum := congrArg (Nat.cast : Nat → Count) (hwrites.mappings hwf other)
      rw [mapping_of_maps hmaps, mapping_of_maps hmoved, Nat.cast_add, Nat.cast_add] at hsum
      rw [hcounts.mapcounts, List.foldl_cons, List.foldl_cons, List.foldl_nil, apply_copy,
        apply_drop, haccurate, sub_add_eq_add_sub, ← hsum, add_sub_cancel_right]
  | switch hmem =>
      intro frame
      rw [mappings_switch hmem]
      exact haccurate frame
  | fork hforks =>
      intro frame
      obtain ⟨new, hcounts, hshares, htotal⟩ := hforks.counts
      rw [hcounts.mapcounts, foldl_shares hshares, htotal, hforks.mappings, haccurate,
        Nat.cast_add]

theorem init_accurate : (Vm.init : Vm Count).Accurate := by
  intro frame
  simp [Vm.mappings, Vm.live, Vm.init, Vm.mappingsOf, Vm.pte, PageTable.pte, Pte.Maps, Pte.zero]

/-! ## The events of a command -/

section Events

variable [LT Count]

theorem safeDrops_of_no_drop {counts : Frame → Count} {new : List MapEvent}
    (hnone : ∀ frame, MapEvent.drop frame ∉ new) : SafeDrops counts new := by
  intro before frame after hsplit
  exact absurd (by simp [hsplit]) (hnone frame)

/-- The drop of `free_page` and of the copy comes first in its command. -/
theorem safeDrops_cons {counts : Frame → Count} {frame : Frame} {rest : List MapEvent}
    (hpos : 0 < counts frame) (hrest : ∀ other, MapEvent.drop other ∉ rest) :
    SafeDrops counts (.drop frame :: rest) := by
  intro before other after hsplit
  cases before with
  | nil =>
      simp only [List.nil_append, List.cons.injEq, MapEvent.drop.injEq] at hsplit
      rw [← hsplit.1]
      exact hpos
  | cons event before =>
      simp only [List.cons_append, List.cons.injEq] at hsplit
      exact absurd (by simp [hsplit.2]) (hrest other)

theorem SafeDrops.append {counts : Frame → Count} {first last : List MapEvent}
    (hfirst : SafeDrops counts first)
    (hlast : SafeDrops (first.foldl MapEvent.apply counts) last) :
    SafeDrops counts (first ++ last) := by
  intro before frame after hsplit
  rcases List.append_eq_append_iff.mp hsplit with ⟨mid, hbefore, hafter⟩ | ⟨mid, hbefore, hafter⟩
  · rw [hbefore, List.foldl_append]
    exact hlast mid frame after hafter
  · cases mid with
    | nil =>
        rw [List.append_nil] at hbefore
        rw [← hbefore]
        exact hlast [] frame after hafter.symm
    | cons event mid =>
        simp only [List.cons_append, List.cons.injEq] at hafter
        rw [← hafter.1] at hbefore
        exact hfirst before frame mid hbefore

/-- What a command does to the map counts of an exact state. -/
theorem Effect.counted {vm next : Vm Count} {command : Command} {ret : Bool}
    (hexact : vm.Exact) (heffect : Effect vm command ret next) :
    ∃ new, Counts vm next new ∧ SafeDrops vm.mapcounts new ∧
      ∀ frame, HandsOut new frame → vm.mappings frame = 0 := by
  have hnothing : Counts vm vm [] := ⟨rfl, by simp⟩
  have hquiet : SafeDrops vm.mapcounts [] := safeDrops_of_no_drop (by simp)
  have hunmapped : ∀ target, vm.freeFrame = some target → vm.mappings target = 0 :=
    fun target htarget => hexact.mappings_zero (freeFrame_zero htarget)
  cases heffect with
  | allocMapped | freeUnmapped | accessHit | accessRefused =>
      exact ⟨[], hnothing, hquiet, by simp [HandsOut]⟩
  | alloc _ hframe _ hcounts =>
      refine ⟨_, hcounts, safeDrops_of_no_drop (by simp), ?_⟩
      intro frame hout
      simp only [HandsOut, List.mem_singleton, MapEvent.assign.injEq, reduceCtorEq,
        or_false] at hout
      rw [hout]
      exact hunmapped _ hframe
  | allocFull _ _ _ hcounts => exact ⟨[], hcounts, hquiet, by simp [HandsOut]⟩
  | free hmaps _ hcounts =>
      exact ⟨_, hcounts, safeDrops_cons (hexact.pos hmaps) (by simp), by simp [HandsOut]⟩
  | unshare _ _ _ _ _ hcounts => exact ⟨[], hcounts, hquiet, by simp [HandsOut]⟩
  | copy hmaps _ _ _ htarget _ hcounts =>
      refine ⟨_, hcounts, safeDrops_cons (hexact.pos hmaps) (by simp), ?_⟩
      intro frame hout
      simp only [HandsOut, List.mem_cons, List.not_mem_nil, reduceCtorEq, or_false, false_or,
        MapEvent.copy.injEq] at hout
      rw [hout]
      exact hunmapped _ htarget
  | switch => exact ⟨[], ⟨rfl, by simp⟩, hquiet, by simp [HandsOut]⟩
  | fork hforks =>
      obtain ⟨new, hcounts, hshares, -⟩ := hforks.counts
      refine ⟨new, hcounts, safeDrops_of_no_drop fun frame hmem => ?_, fun frame hout => ?_⟩
      · obtain ⟨shared, heq⟩ := hshares _ hmem
        cases heq
      · rcases hout with hmem | hmem <;> obtain ⟨shared, heq⟩ := hshares _ hmem <;> cases heq

end Events

/-! ## Bounds -/

/-- A process maps a frame at most once. -/
def Vm.MappedOnce (vm : Vm Count) : Prop :=
  ∀ address ∈ vm.live, ∀ u v frame, (vm.pte address u).Maps frame →
    (vm.pte address v).Maps frame → u = v

/-- An entry may be written if no other one of its process maps its frame. -/
theorem Writes.mappedOnce {vm next : Vm Count} {vpn : Vpn} {pte : Pte}
    (hwrites : Writes vm next vpn pte) (honce : vm.MappedOnce)
    (hother : ∀ frame, pte.Maps frame → ∀ other, other ≠ vpn →
      ¬ (vm.pte vm.current other).Maps frame) : next.MappedOnce := by
  intro address haddress u v frame hu hv
  rw [hwrites.live] at haddress
  rw [hwrites.pte] at hu hv
  by_cases hcurrent : address = vm.current
  · subst hcurrent
    rcases eq_or_ne u vpn with rfl | hne
    · rcases eq_or_ne v u with rfl | hne'
      · rfl
      · rw [if_pos ⟨rfl, rfl⟩] at hu
        rw [if_neg fun h => hne' h.2] at hv
        exact absurd hv (hother frame hu v hne')
    · rw [if_neg fun h => hne h.2] at hu
      rcases eq_or_ne v vpn with rfl | hne'
      · rw [if_pos ⟨rfl, rfl⟩] at hv
        exact absurd hu (hother frame hv u hne)
      · rw [if_neg fun h => hne' h.2] at hv
        exact honce vm.current haddress u v frame hu hv
  · rw [if_neg fun h => hcurrent h.1] at hu hv
    exact honce address haddress u v frame hu hv

theorem Effect.mappedOnce [LT Count] {vm next : Vm Count} {command : Command} {ret : Bool}
    (hexact : vm.Exact) (honce : vm.MappedOnce) (heffect : Effect vm command ret next)
    (hfinds : allocFinds vm command) : next.MappedOnce := by
  have hcurrent := mem_live_current vm
  cases heffect with
  | allocMapped | freeUnmapped | accessHit | accessRefused => exact honce
  | @alloc vpn rw frame _ _ hframe hwrites =>
      refine hwrites.mappedOnce honce fun target htarget other _ hmaps => ?_
      have heq : frame = target := Fin.ext htarget.2
      exact hexact.unmapped (freeFrame_zero hframe) hcurrent other (heq ▸ hmaps)
  | allocFull _ hfull =>
      obtain ⟨frame, hzero⟩ := hfinds
      exact absurd hzero (freeFrame_none hfull frame)
  | free _ hwrites =>
      refine hwrites.mappedOnce honce fun target htarget => ?_
      simp [Pte.Maps, Pte.zero] at htarget
  | @unshare vpn _ _ _ _ _ _ hwrites =>
      refine hwrites.mappedOnce honce fun target htarget other hne hmaps => hne ?_
      exact honce vm.current hcurrent other vpn target hmaps htarget
  | @copy vpn frame target _ _ _ _ _ hfree hwrites =>
      refine hwrites.mappedOnce honce fun mapped hmapped other _ hmaps => ?_
      have heq : target = mapped := Fin.ext hmapped.2
      exact hexact.unmapped (freeFrame_zero hfree) hcurrent other (heq ▸ hmaps)
  | switch hmem =>
      intro address haddress
      exact honce address ((switch_live_perm hmem).mem_iff.mp haddress)
  | fork hforks =>
      intro address haddress u v frame hu hv
      rcases List.mem_cons.mp (hforks.live_perm.mem_iff.mp haddress) with rfl | hold
      · rw [hforks.child] at hu hv
        exact honce vm.current hcurrent u v frame hu hv
      · rcases List.mem_cons.mp hold with rfl | hlisted
        · rw [hforks.parent] at hu hv
          exact honce vm.current hcurrent u v frame hu hv
        · rw [hforks.others address hlisted] at hu hv
          exact honce address hold u v frame hu hv

/-- Processes that map a frame at most once make no more mappings than there are processes. -/
theorem mappings_le_live {vm : Vm Count} (honce : vm.MappedOnce) (frame : Frame) :
    vm.mappings frame ≤ vm.live.length := by
  have hone : ∀ count ∈ vm.live.map fun address => vm.mappingsOf address frame, count ≤ 1 := by
    intro count hcount
    obtain ⟨address, haddress, rfl⟩ := List.mem_map.mp hcount
    refine Finset.card_le_one.mpr fun u hu v hv => ?_
    simp only [Finset.mem_filter_univ] at hu hv
    exact honce address haddress u v frame hu hv
  have hsum := List.sum_le_card_nsmul _ 1 hone
  simpa [Vm.mappings] using hsum

/-- No process ends. -/
theorem Effect.live_le {vm next : Vm Count} {command : Command} {ret : Bool}
    (heffect : Effect vm command ret next) : vm.live.length ≤ next.live.length := by
  cases heffect with
  | allocMapped | freeUnmapped | accessHit | accessRefused => exact le_rfl
  | alloc _ _ hwrites | allocFull _ _ hwrites | free _ hwrites | unshare _ _ _ _ hwrites
  | copy _ _ _ _ _ hwrites => rw [hwrites.live]
  | switch hmem => exact (switch_live_perm hmem).length_eq.ge
  | fork hforks =>
      rw [hforks.live_perm.length_eq]
      exact Nat.le_succ _

/-- Along a run whose allocations find a frame the counts stay exact as long as they tell
the numbers up to that of the processes, and they are what the events of the run add up to. -/
theorem allocFinds_exact [LT Count] {bound : Nat} (htells : ∀ n ≤ bound, Tells Count n)
    {vm : Vm Count} (hreach : (machine allocFinds).Reachable vm) (hlive : vm.live.length ≤ bound) :
    vm.Exact ∧ vm.MappedOnce ∧ vm.mapcounts = vm.events.foldl MapEvent.apply (fun _ => 0) ∧
      SafeDrops (fun _ => (0 : Count)) vm.events := by
  have hexact : ∀ state : Vm Count, state.Accurate → state.MappedOnce →
      state.live.length ≤ bound → state.Exact := fun state haccurate honce hle =>
    ⟨haccurate, fun frame => htells _ ((mappings_le_live honce frame).trans hle)⟩
  revert hlive
  refine hreach.invariant (fun state => state.live.length ≤ bound → state.Exact ∧
    state.MappedOnce ∧ state.mapcounts = state.events.foldl MapEvent.apply (fun _ => 0) ∧
    SafeDrops (fun _ => (0 : Count)) state.events) ?_ ?_
  · intro hlive
    have honce : (Vm.init : Vm Count).MappedOnce := by
      intro address _ u v frame hu
      simp [Vm.pte, Vm.init, PageTable.pte, Pte.Maps, Pte.zero] at hu
    exact ⟨hexact _ init_accurate honce hlive, honce, rfl,
      safeDrops_of_no_drop (by simp [machine, Vm.init])⟩
  · rintro state command next hstate hinv hstep hlive
    have hwf := reachable_wellFormed hstate
    obtain ⟨ret, heffect⟩ := step_effect hwf hstep
    obtain ⟨hstated, honce, hreplay, hsafe⟩ := hinv (heffect.live_le.trans hlive)
    obtain ⟨new, hcounts, hnew, -⟩ := heffect.counted hstated
    have haccurate := heffect.accurate hwf hstated.accurate hstep.2.1
    have honce' := heffect.mappedOnce hstated honce hstep.2.1
    refine ⟨hexact next haccurate honce' hlive, honce', ?_, ?_⟩
    · rw [hcounts.mapcounts, hcounts.events, List.foldl_append, hreplay]
    · rw [hcounts.events]
      exact hsafe.append (hreplay ▸ hnew)

theorem exact_of_accurate {vm : Vm Int} (haccurate : vm.Accurate) : vm.Exact :=
  ⟨haccurate, fun _ => tells_int _⟩

/-- A command in range does to the counts of an exact state what it does to the mappings. -/
theorem exec_counted [LT Count] {vm : Vm Count} (hwf : vm.WellFormed) (hexact : vm.Exact)
    {command : Command} (hrange : command.InRange) (hfinds : allocFinds vm command) :
    ∃ ret next new, exec .zeroed vm command = .ok (ret, next) ∧ next.Accurate ∧
      next.events = vm.events ++ new ∧ SafeDrops vm.mapcounts new ∧
      ∀ frame, HandsOut new frame → vm.mappings frame = 0 := by
  obtain ⟨ret, next, hexec, heffect⟩ := exec_effect hwf hrange
  obtain ⟨new, hcounts, hsafe, hout⟩ := heffect.counted hexact
  exact ⟨ret, next, new, hexec, heffect.accurate hwf hexact.accurate hfinds, hcounts.events,
    hsafe, hout⟩

/-- The counts of the machine are the numbers of the mappings. -/
def Vm.Counted (vm : Vm Word) : Prop := ∀ frame, (vm.mapcounts frame).toNat = vm.mappings frame

theorem Vm.Counted.exact {vm : Vm Word} (hcounted : vm.Counted) : vm.Exact where
  accurate frame := by
    rw [← hcounted frame]
    exact ((BitVec.ofNat_toNat _ _).trans (BitVec.setWidth_eq _)).symm
  tells frame := tells_word (hcounted frame ▸ (vm.mapcounts frame).isLt)

theorem counted_of_accurate {vm : Vm Word} (haccurate : vm.Accurate) {frame : Frame}
    (hlt : vm.mappings frame < 2 ^ 32) : (vm.mapcounts frame).toNat = vm.mappings frame := by
  rw [haccurate]
  exact Nat.mod_eq_of_lt hlt

/-- **Map-count accuracy.** The initial state is accurate; in any reachable accurate
state every command in range that is not an `alloc` on a full memory succeeds and
leaves an accurate state; the decrements it executes meet positive counts, and the
frames it hands out are mapped by nobody. So along a run whose allocations find a
frame no decrement is ever executed on zero. The counts of the machine do the same as
long as a frame has fewer than 2^32 mappings, which it has in such a run with fewer than
2^32 processes. -/
theorem mapcounts_accurate :
    (Vm.init : Vm Int).Accurate ∧
    (∀ vm : Vm Int, (machine always).Reachable vm → vm.Accurate →
      ∀ command, command.InRange → allocFinds vm command →
      ∃ ret next new, exec .zeroed vm command = .ok (ret, next) ∧ next.Accurate ∧
        next.events = vm.events ++ new ∧ SafeDrops vm.mapcounts new ∧
        ∀ frame, HandsOut new frame → vm.mappings frame = 0) ∧
    (∀ vm : Vm Int, (machine allocFinds).Reachable vm →
      vm.Accurate ∧ SafeDrops (fun _ => (0 : Int)) vm.events) ∧
    (∀ vm : Vm Word, (machine always).Reachable vm → vm.Counted →
      ∀ command, command.InRange → allocFinds vm command →
      ∃ ret next new, exec .zeroed vm command = .ok (ret, next) ∧
        ((∀ frame, next.mappings frame < 2 ^ 32) → next.Counted) ∧
        next.events = vm.events ++ new ∧ SafeDrops vm.mapcounts new ∧
        ∀ frame, HandsOut new frame → vm.mappings frame = 0) ∧
    (∀ vm : Vm Word, (machine allocFinds).Reachable vm → vm.live.length < 2 ^ 32 →
      vm.Counted ∧ SafeDrops (fun _ => (0 : Word)) vm.events) := by
  refine ⟨init_accurate, ?_, ?_, ?_, ?_⟩
  · intro vm hreach haccurate command hrange hfinds
    exact exec_counted (reachable_wellFormed hreach) (exact_of_accurate haccurate) hrange hfinds
  · intro vm hreach
    obtain ⟨hexact, -, -, hsafe⟩ :=
      allocFinds_exact (fun n _ => tells_int n) hreach (le_refl vm.live.length)
    exact ⟨hexact.accurate, hsafe⟩
  · intro vm hreach hcounted command hrange hfinds
    obtain ⟨ret, next, new, hexec, haccurate, hevents⟩ :=
      exec_counted (reachable_wellFormed hreach) hcounted.exact hrange hfinds
    exact ⟨ret, next, new, hexec, fun hlt frame => counted_of_accurate haccurate (hlt frame),
      hevents⟩
  · intro vm hreach hlive
    obtain ⟨hexact, honce, -, hsafe⟩ :=
      allocFinds_exact (fun n hn => tells_word (hn.trans_lt hlive)) hreach le_rfl
    exact ⟨fun frame => counted_of_accurate hexact.accurate
      ((mappings_le_live honce frame).trans_lt hlive), hsafe⟩

/-- The state after a fork is accurate, and freeing the shared page keeps it so. -/
theorem mapcounts_accurate_fork :
    let vm : Vm Int := [.alloc 0 RW_WRITE, .switch 1].foldl Vm.after .init
    let words : Vm Word := [.alloc 0 RW_WRITE, .switch 1].foldl Vm.after .init
    (vm.Accurate ∧ ∃ ret next new, exec .zeroed vm (.free 0) = .ok (ret, next) ∧ next.Accurate ∧
      next.events = vm.events ++ new ∧ SafeDrops vm.mapcounts new ∧
      ∀ frame, HandsOut new frame → vm.mappings frame = 0) ∧
    words.Counted ∧ ∃ ret next new, exec .zeroed words (.free 0) = .ok (ret, next) ∧
      ((∀ frame, next.mappings frame < 2 ^ 32) → next.Counted) ∧
      next.events = words.events ++ new ∧ SafeDrops words.mapcounts new ∧
      ∀ frame, HandsOut new frame → words.mappings frame = 0 := by
  intro vm words
  obtain ⟨-, hstep, hrun, hwordStep, hwordRun⟩ := mapcounts_accurate
  have hadmits : (Vm.init : Vm Int).Admits allocFinds [.alloc 0 RW_WRITE, .switch 1] :=
    ⟨by decide, ⟨0, rfl⟩, trivial, trivial, trivial⟩
  have hany : (Vm.init : Vm Int).Admits always [.alloc 0 RW_WRITE, .switch 1] :=
    ⟨by decide, trivial, trivial, trivial, trivial⟩
  have haccurate : vm.Accurate := (hrun vm (admits_run .nil hadmits).reachable).1
  have hadmits' : (Vm.init : Vm Word).Admits allocFinds [.alloc 0 RW_WRITE, .switch 1] :=
    ⟨by decide, ⟨0, rfl⟩, trivial, trivial, trivial⟩
  have hany' : (Vm.init : Vm Word).Admits always [.alloc 0 RW_WRITE, .switch 1] :=
    ⟨by decide, trivial, trivial, trivial, trivial⟩
  have hcounted : words.Counted :=
    (hwordRun words (admits_run .nil hadmits').reachable (by decide +kernel)).1
  exact ⟨⟨haccurate, hstep vm (admits_run .nil hany).reachable haccurate (.free 0) (by decide)
      trivial⟩,
    hcounted, hwordStep words (admits_run .nil hany').reachable hcounted (.free 0) (by decide)
      trivial⟩

end OperatingSystem.Paging
