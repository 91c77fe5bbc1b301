import Mathlib.Data.List.Basic
import Mathlib.Data.List.Nodup
import Mathlib.Data.List.Infix

/-!
# Queues that are served one element at a time

A queue is observed from time to time. Between two times its first element leaves it, and
others may join it at the end. So the elements of the queue are served in their order, and an
element has to wait for those before it, and only once for each of them.
-/

namespace OperatingSystem

variable {α : Type*}

/-- From `first` on, and before `last`, the first element leaves and others join at the end. -/
def Rotates (queue : Nat → List α) (first last : Nat) : Prop :=
  ∀ time, first ≤ time → time + 1 < last → (queue time).tail <+: queue (time + 1)

section Rotates

variable {queue : Nat → List α} {first last : Nat}

theorem Rotates.later (hrotates : Rotates queue first last) {time : Nat} (htime : first ≤ time) :
    Rotates queue time last :=
  fun later hlater => hrotates later (htime.trans hlater)

/-- What is left of the queue stays at the front. -/
theorem Rotates.drop (hrotates : Rotates queue first last) {count : Nat}
    (hlast : first + count < last) : (queue first).drop count <+: queue (first + count) := by
  induction count with
  | zero => simp
  | succ count ih =>
      have hbefore := ih (by omega)
      have hstep := hrotates (first + count) (by omega) (by omega)
      calc (queue first).drop (count + 1) = ((queue first).drop count).tail := by simp
        _ <+: (queue (first + count)).tail := by simpa using hbefore.drop 1
        _ <+: queue (first + (count + 1)) := hstep

/-- The elements are served in their order. -/
theorem Rotates.served (hrotates : Rotates queue first last) {count : Nat}
    (hcount : count < (queue first).length) (hlast : first + count < last) :
    (queue (first + count)).head? = (queue first)[count]? := by
  obtain ⟨joined, hjoined⟩ := hrotates.drop hlast
  rw [← hjoined, List.drop_eq_getElem_cons hcount, List.cons_append, List.head?_cons,
    List.getElem?_eq_getElem hcount]

/-- The next time at which an element is served is given by its place in the queue. -/
theorem Rotates.next_served (hrotates : Rotates queue first last) (hnodup : (queue first).Nodup)
    {place : Nat} {x : α} (hplace : (queue first)[place]? = some x) {time : Nat}
    (hfirst : first ≤ time) (hlast : time < last) (hserved : (queue time).head? = some x)
    (hnot : ∀ earlier, first ≤ earlier → earlier < time → (queue earlier).head? ≠ some x) :
    time = first + place := by
  obtain ⟨count, rfl⟩ := Nat.exists_eq_add_of_le hfirst
  obtain ⟨hlt, -⟩ := List.getElem?_eq_some_iff.mp hplace
  have hle : count ≤ place := by
    by_contra hafter
    refine hnot (first + place) (by omega) (by omega) ?_
    rw [hrotates.served hlt (by omega)]
    exact hplace
  rw [hrotates.served (by omega) hlast, ← hplace] at hserved
  rw [(List.getElem?_inj (by omega) hnodup).mp hserved]

/-! ### A round of the queue -/

section Round

variable (hrotates : Rotates queue first last) (hnodup : (queue first).Nodup) {x : α}
  (hx : (queue first).getLast? = some x) {time : Nat} (hfirst : first ≤ time) (hlast : time < last)
  (hserved : (queue time).head? = some x)
  (hnot : ∀ earlier, first ≤ earlier → earlier < time → (queue earlier).head? ≠ some x)

include hrotates hnodup hx hfirst hlast hserved hnot

/-- An element at the end of the queue is served after all the others. -/
theorem Rotates.round_length : time + 1 = first + (queue first).length := by
  have hnil : queue first ≠ [] := by
    intro hnil
    simp [hnil] at hx
  have hpos := List.length_pos_of_ne_nil hnil
  rw [List.getLast?_eq_getElem?] at hx
  rw [hrotates.next_served hnodup hx hfirst hlast hserved hnot]
  omega

/-- Until then they are served in their order. -/
theorem Rotates.round_served {earlier : Nat} (hle : first ≤ earlier) (hlt : earlier < time) :
    (queue earlier).head? = (queue first)[earlier - first]? := by
  have hlength := hrotates.round_length hnodup hx hfirst hlast hserved hnot
  obtain ⟨count, rfl⟩ := Nat.exists_eq_add_of_le hle
  rw [Nat.add_sub_cancel_left]
  exact hrotates.served (by omega) (by omega)

theorem Rotates.round_ne_nil {earlier : Nat} (hle : first ≤ earlier) (hlt : earlier < time) :
    queue earlier ≠ [] := by
  have hlength := hrotates.round_length hnodup hx hfirst hlast hserved hnot
  have hhead := hrotates.round_served hnodup hx hfirst hlast hserved hnot hle hlt
  intro hnil
  rw [hnil, List.head?_nil, eq_comm, List.getElem?_eq_none_iff] at hhead
  omega

theorem Rotates.round_mem {earlier : Nat} (hle : first ≤ earlier) (hlt : earlier < time) {y : α}
    (hy : (queue earlier).head? = some y) : y ∈ queue first := by
  rw [hrotates.round_served hnodup hx hfirst hlast hserved hnot hle hlt] at hy
  exact List.mem_of_getElem? hy

/-- Each of the others is served once. -/
theorem Rotates.round_once {y : α} (hy : y ∈ queue first) (hne : y ≠ x) :
    ∃! earlier, first ≤ earlier ∧ earlier < time ∧ (queue earlier).head? = some y := by
  have hlength := hrotates.round_length hnodup hx hfirst hlast hserved hnot
  obtain ⟨place, hplace, hget⟩ := List.getElem_of_mem hy
  have hsome : (queue first)[place]? = some y := List.getElem?_eq_some_iff.mpr ⟨hplace, hget⟩
  have hend : place ≠ (queue first).length - 1 := by
    rintro rfl
    rw [List.getLast?_eq_getElem?, hsome] at hx
    exact hne (Option.some.inj hx)
  refine ⟨first + place, ⟨by omega, by omega, ?_⟩, ?_⟩
  · rw [hrotates.served hplace (by omega), hsome]
  · rintro earlier ⟨hle, hlt, hhead⟩
    rw [hrotates.round_served hnodup hx hfirst hlast hserved hnot hle hlt, ← hsome] at hhead
    have hplaces := (List.getElem?_inj (by omega) hnodup).mp hhead
    omega

end Round

end Rotates

end OperatingSystem
