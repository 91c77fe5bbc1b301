import Mathlib.Data.List.Basic
import Mathlib.Data.List.Count
import Mathlib.Data.List.Perm.Subperm
import Mathlib.Algebra.Order.Group.Int

/-!
# First-come first-served semaphores

A semaphore is the list of those who have arrived so far and the number of permits given
so far. The first of those who arrived have been granted a permit each, and the others
wait in the order of their arrival. The value is the number of permits that are left, or
minus the number of those who wait.

The last part counts in histories: whoever has been granted more often than he has given
back holds a permit, and a history of returns that is covered by one of grants is as long
at most.
-/

namespace OperatingSystem

/-- The history of a semaphore: the arrivals, oldest first, and the number of permits. -/
structure Semaphore (T : Type*) where
  arrivals : List T
  permits : Nat

namespace Semaphore

variable {T : Type*} (sem : Semaphore T)

def granted : List T := sem.arrivals.take sem.permits

def waiting : List T := sem.arrivals.drop sem.permits

def value : Int := sem.permits - sem.arrivals.length

def arrive (t : T) : Semaphore T := ⟨sem.arrivals ++ [t], sem.permits⟩

def permit : Semaphore T := ⟨sem.arrivals, sem.permits + 1⟩

theorem granted_isPrefix : sem.granted <+: sem.arrivals := List.take_prefix _ _

theorem granted_length_le : sem.granted.length ≤ sem.permits := List.length_take_le _ _

/-- The length of the queue is minus the value, if that is negative. -/
theorem waiting_length : (sem.waiting.length : Int) = max 0 (-sem.value) := by
  rw [waiting, List.length_drop, value]
  omega

theorem waiting_eq_nil : sem.waiting = [] ↔ 0 ≤ sem.value := by
  rw [waiting, List.drop_eq_nil_iff, value]
  omega

/-- Nobody waits, or every permit has been granted. -/
theorem granted_length_of_waiting {t : T} (hwaits : t ∈ sem.waiting) :
    sem.granted.length = sem.permits := by
  have hnonempty : sem.waiting ≠ [] := List.ne_nil_of_mem hwaits
  rw [Ne, waiting_eq_nil, value] at hnonempty
  rw [granted, List.length_take]
  omega

@[simp] theorem arrive_value (t : T) : (sem.arrive t).value = sem.value - 1 := by
  simp only [value, arrive, List.length_append, List.length_singleton]
  omega

@[simp] theorem permit_value : sem.permit.value = sem.value + 1 := by
  simp only [value, permit]
  omega

/-- Who finds a permit is granted it at once. -/
theorem arrive_granted {t : T} (hvalue : 0 ≤ (sem.arrive t).value) :
    (sem.arrive t).granted = sem.granted ++ [t] ∧ (sem.arrive t).waiting = sem.waiting := by
  have hlength : sem.arrivals.length + 1 ≤ sem.permits := by
    simp only [value, arrive, List.length_append, List.length_singleton] at hvalue
    omega
  simp only [granted, waiting, arrive]
  rw [List.take_of_length_le (by simpa using hlength), List.take_of_length_le (by omega),
    List.drop_of_length_le (by simpa using hlength), List.drop_of_length_le (by omega)]
  exact ⟨rfl, rfl⟩

/-- Who finds none waits at the end of the queue. -/
theorem arrive_waiting {t : T} (hvalue : (sem.arrive t).value < 0) :
    (sem.arrive t).granted = sem.granted ∧ (sem.arrive t).waiting = sem.waiting ++ [t] := by
  have hlength : sem.permits ≤ sem.arrivals.length := by
    simp only [value, arrive, List.length_append, List.length_singleton] at hvalue
    omega
  simp only [granted, waiting, arrive]
  exact ⟨List.take_append_of_le_length hlength, List.drop_append_of_le_length hlength⟩

/-- A new permit goes to the head of the queue. -/
theorem permit_granted (hvalue : sem.permit.value ≤ 0) :
    ∃ first, sem.waiting = first :: sem.permit.waiting ∧
      sem.permit.granted = sem.granted ++ [first] := by
  have hlt : sem.permits < sem.arrivals.length := by
    simp only [value, permit] at hvalue
    omega
  refine ⟨sem.arrivals[sem.permits], List.drop_eq_getElem_cons hlt, ?_⟩
  simp only [granted, permit]
  rw [List.take_add_one, List.getElem?_eq_getElem hlt]
  rfl

/-- It is left over if nobody waits. -/
theorem permit_waiting (hvalue : 0 < sem.permit.value) :
    sem.permit.granted = sem.granted ∧ sem.permit.waiting = sem.waiting := by
  have hle : sem.arrivals.length ≤ sem.permits := by
    simp only [value, permit] at hvalue
    omega
  simp only [granted, waiting, permit]
  rw [List.take_of_length_le hle, List.take_of_length_le (by omega),
    List.drop_of_length_le hle, List.drop_of_length_le (by omega)]
  exact ⟨rfl, rfl⟩

end Semaphore

/-! ## Histories of grants and returns -/

section Histories

variable {T : Type*} [DecidableEq T] {grants returns : List T}

/-- Every return is covered by a grant. -/
theorem length_le_of_count_le (hcovered : ∀ t, returns.count t ≤ grants.count t) :
    returns.length ≤ grants.length :=
  (List.subperm_ext_iff.mpr fun t _ => hcovered t).length_le

/-- With one grant more than returns, nobody has two grants that he has not returned. -/
theorem count_le_succ_of_covered (hcovered : ∀ t, returns.count t ≤ grants.count t)
    (hlength : grants.length ≤ returns.length + 1) (t : T) :
    grants.count t ≤ returns.count t + 1 := by
  by_contra hlt
  -- two returns more of `t` would still be covered
  have hmore : ∀ v, (t :: t :: returns).count v ≤ grants.count v := by
    intro v
    have hv := hcovered v
    by_cases htv : t = v
    · subst htv
      simp
      omega
    · simpa [htv] using hv
  have hle := length_le_of_count_le hmore
  simp only [List.length_cons] at hle
  omega

/-- With one grant more than returns, at most one has a grant that he has not returned. -/
theorem holder_unique (hcovered : ∀ t, returns.count t ≤ grants.count t)
    (hlength : grants.length ≤ returns.length + 1) {t u : T}
    (ht : returns.count t < grants.count t) (hu : returns.count u < grants.count u) : t = u := by
  by_contra hne
  -- two returns more would still be covered
  have hmore : ∀ v, (t :: u :: returns).count v ≤ grants.count v := by
    intro v
    have hv := hcovered v
    by_cases htv : t = v
    · subst htv
      simp [Ne.symm hne]
      omega
    · by_cases huv : u = v
      · subst huv
        simp [htv]
        omega
      · simpa [htv, huv] using hv
  have hle := length_le_of_count_le hmore
  simp only [List.length_cons] at hle
  omega

/-- Histories in which everybody has the same count are as long. -/
theorem length_eq_of_count_eq (hsame : ∀ t, returns.count t = grants.count t) :
    returns.length = grants.length :=
  (List.perm_iff_count.mpr hsame).length_eq

/-- A prefix that misses one of the entries at most misses the last one. -/
theorem eq_concat_of_isPrefix {t : T} (hinitial : returns <+: grants)
    (hlength : grants.length ≤ returns.length + 1) (ht : returns.count t < grants.count t) :
    grants = returns ++ [t] := by
  obtain ⟨rest, rfl⟩ := hinitial
  simp only [List.length_append, List.count_append] at hlength ht
  cases rest with
  | nil => simp at ht
  | cons last more =>
      simp only [List.length_cons] at hlength
      obtain rfl : more = [] := List.length_eq_zero_iff.mp (by omega)
      have hlast : last = t := by
        by_contra hne
        simp [hne] at ht
      rw [hlast]

end Histories

end OperatingSystem
