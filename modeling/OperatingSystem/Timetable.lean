import Mathlib.Data.List.Induction
import Mathlib.Data.List.Pairwise
import Mathlib.Data.List.Sort

/-!
# Timetables

Jobs that are served one after the other in the order of their starts: when each of them
is served, if the server is free from a time on.
-/

namespace OperatingSystem

variable {ι : Type*}

/-- The time that a job is served, from `first` up to `finish`. -/
structure Slot (ι : Type*) where
  job : ι
  first : Nat
  finish : Nat

def Slot.Active (slot : Slot ι) (time : Nat) : Prop := slot.first ≤ time ∧ time < slot.finish

/-! ## One job after the other -/

section Timetable

variable (start length : ι → Nat)

/-- A job is served from its start, or from the finish of the job before. -/
def timetable : Nat → List ι → List (Slot ι)
  | _, [] => []
  | free, job :: rest =>
    let first := max (start job) free
    let finish := first + length job
    ⟨job, first, finish⟩ :: timetable finish rest

/-- When all jobs are done. -/
def doneAt (free : Nat) (jobs : List ι) : Nat :=
  jobs.foldl (fun free job => max (start job) free + length job) free

theorem doneAt_snoc (free : Nat) (jobs : List ι) (job : ι) :
    doneAt start length free (jobs ++ [job]) =
      max (start job) (doneAt start length free jobs) + length job := by
  simp [doneAt]

theorem le_doneAt (free : Nat) (jobs : List ι) : free ≤ doneAt start length free jobs := by
  induction jobs generalizing free with
  | nil => exact le_refl free
  | cons job rest ih =>
      calc free ≤ max (start job) free + length job := by omega
        _ ≤ doneAt start length (max (start job) free + length job) rest := ih _

theorem timetable_append (free : Nat) (before after : List ι) :
    timetable start length free (before ++ after) = timetable start length free before ++
      timetable start length (doneAt start length free before) after := by
  induction before generalizing free with
  | nil => rfl
  | cons job rest ih =>
      simp only [List.cons_append, timetable, ih]
      rfl

theorem timetable_jobs (free : Nat) (jobs : List ι) :
    (timetable start length free jobs).map Slot.job = jobs := by
  induction jobs generalizing free with
  | nil => rfl
  | cons job rest ih => simp [timetable, ih]

theorem timetable_slot (free : Nat) (before : List ι) (job : ι) (after : List ι) :
    ⟨job, max (start job) (doneAt start length free before),
      doneAt start length free (before ++ [job])⟩ ∈
      timetable start length free (before ++ job :: after) := by
  rw [timetable_append, doneAt_snoc]
  exact List.mem_append_right _ List.mem_cons_self

theorem timetable_last (free : Nat) (jobs : List ι) :
    ((timetable start length free jobs).getLast?).elim free Slot.finish =
      doneAt start length free jobs := by
  induction jobs using List.reverseRecOn with
  | nil => rfl
  | append_singleton rest job ih =>
      rw [timetable_append, doneAt_snoc]
      simp [timetable]

variable {start length} {free : Nat} {jobs : List ι}

theorem timetable_bounds {slot : Slot ι} (hslot : slot ∈ timetable start length free jobs) :
    max (start slot.job) free ≤ slot.first ∧ slot.finish ≤ doneAt start length free jobs := by
  induction jobs generalizing free with
  | nil => simp [timetable] at hslot
  | cons job rest ih =>
      rcases List.mem_cons.mp hslot with rfl | hslot
      · exact ⟨le_refl _, le_doneAt start length _ rest⟩
      · obtain ⟨hfirst, hfinish⟩ := ih hslot
        exact ⟨by omega, hfinish⟩

/-- The slots do not overlap. -/
theorem timetable_pairwise : (timetable start length free jobs).Pairwise fun slot later =>
    slot.finish ≤ later.first := by
  induction jobs generalizing free with
  | nil => exact List.Pairwise.nil
  | cons job rest ih =>
      refine List.pairwise_cons.mpr ⟨fun slot hslot => ?_, ih⟩
      have hbounds := (timetable_bounds hslot).1
      exact (le_max_right _ _).trans hbounds

/-- At most one slot is active at a time. -/
theorem active_unique {slot other : Slot ι} (hslot : slot ∈ timetable start length free jobs)
    (hother : other ∈ timetable start length free jobs) {time : Nat} (hactive : slot.Active time)
    (hactive' : other.Active time) : slot = other := by
  let agree : Slot ι → Slot ι → Prop := fun a b => a.Active time → b.Active time → a = b
  have hapart : ∀ {a b : Slot ι}, a.finish ≤ b.first → agree a b := by
    rintro a b hle ⟨-, ha⟩ ⟨hb, -⟩
    omega
  have : Std.Symm agree := ⟨fun a b hagree hb ha => (hagree ha hb).symm⟩
  exact List.Pairwise.forall_of_forall (fun _ _ _ _ => rfl) (timetable_pairwise.imp hapart)
    hslot hother hactive hactive'

end Timetable

/-! ## By start -/

/-- The jobs by their starts, those of one start in the order of the list. -/
def byStart (start : ι → Nat) (jobs : List ι) : List ι :=
  jobs.insertionSort fun a b => start a ≤ start b

section ByStart

variable {start : ι → Nat}

theorem byStart_perm (start : ι → Nat) (jobs : List ι) : (byStart start jobs).Perm jobs :=
  List.perm_insertionSort _ jobs

theorem byStart_sorted (start : ι → Nat) (jobs : List ι) :
    (byStart start jobs).Pairwise fun a b => start a ≤ start b := by
  have : IsTrans ι fun a b => start a ≤ start b := ⟨fun _ _ _ => le_trans⟩
  have : Std.Total fun a b : ι => start a ≤ start b := ⟨fun _ _ => le_total _ _⟩
  exact List.pairwise_insertionSort _ jobs

/-- The jobs of one start keep their order. -/
theorem byStart_filter (jobs : List ι) (time : Nat) :
    (byStart start jobs).filter (fun job => start job = time) =
      jobs.filter fun job => start job = time := by
  have hsame : (jobs.filter fun job => start job = time).Pairwise fun a b => start a ≤ start b := by
    rw [List.pairwise_filter]
    refine List.pairwise_of_forall fun a b ha hb => ?_
    simp_all
  have : IsTrans ι fun a b => start a ≤ start b := ⟨fun _ _ _ => le_trans⟩
  have : Std.Total fun a b : ι => start a ≤ start b := ⟨fun _ _ => le_total _ _⟩
  have hsub := (List.sublist_insertionSort hsame List.filter_sublist).filter
    fun job => start job = time
  rw [List.filter_filter] at hsub
  simp only [Bool.and_self] at hsub
  refine (hsub.eq_of_length ?_).symm
  exact ((byStart_perm start jobs).filter _).length_eq.symm

/-- In a sorted list the jobs of a time follow those of the times before. -/
theorem filter_started {jobs : List ι} (hsorted : jobs.Pairwise fun a b => start a ≤ start b)
    (time : Nat) : jobs.filter (fun job => start job ≤ time) =
      jobs.filter (fun job => start job < time) ++ jobs.filter (fun job => start job = time) := by
  induction jobs with
  | nil => rfl
  | cons job rest ih =>
      obtain ⟨hfirst, hrest⟩ := List.pairwise_cons.mp hsorted
      rcases Nat.lt_trichotomy (start job) time with hlt | heq | hgt
      · simp [hlt, hlt.ne, hlt.le, ih hrest]
      · have hnone : rest.filter (fun job => start job < time) = [] := by
          refine List.filter_eq_nil_iff.mpr fun other hother => ?_
          have hle := hfirst other hother
          simp only [decide_eq_true_eq]
          omega
        simp [heq, ih hrest, hnone]
      · simp [hgt.not_ge, hgt.ne', hgt.not_gt, ih hrest]

end ByStart

end OperatingSystem
