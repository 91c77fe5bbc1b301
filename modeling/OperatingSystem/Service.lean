import Mathlib.Data.List.Basic

/-!
# First come, first served

The log of the calls for something that is given to one caller at a time, and the log of
its grants. A caller may call again before it is granted, and its place is that of its
first call. `FirstCome` is the state of a service that keeps this order: the callers that
were granted and those that are pending, one list after the other, are the callers by
their first calls.
-/

namespace OperatingSystem

variable {α : Type*} [DecidableEq α] {xs ys calls grants pending : List α} {a b : α}

/-- The first occurrence of `a` is before that of `b`, if `b` occurs. -/
def Earlier (xs : List α) (a b : α) : Prop := xs.idxOf a < xs.idxOf b

instance : DecidableRel (Earlier xs) := fun a b =>
  inferInstanceAs (Decidable (xs.idxOf a < xs.idxOf b))

theorem Earlier.mem (hearlier : Earlier xs a b) : a ∈ xs :=
  List.idxOf_lt_length_iff.mp (Nat.lt_of_lt_of_le hearlier List.idxOf_le_length)

theorem Earlier.asymm (hearlier : Earlier xs a b) : ¬ Earlier xs b a :=
  Nat.lt_asymm hearlier

theorem earlier_of_notMem (ha : a ∈ xs) (hb : b ∉ xs) : Earlier xs a b := by
  rw [Earlier, List.idxOf_eq_length hb]
  exact List.idxOf_lt_length_of_mem ha

theorem Earlier.append (hearlier : Earlier xs a b) (ys : List α) : Earlier (xs ++ ys) a b := by
  have ha := hearlier.mem
  by_cases hb : b ∈ xs
  · rw [Earlier, List.idxOf_append_of_mem ha, List.idxOf_append_of_mem hb]
    exact hearlier
  · have hlt := List.idxOf_lt_length_of_mem ha
    rw [Earlier, List.idxOf_append_of_mem ha, List.idxOf_append_of_notMem hb]
    omega

theorem Earlier.of_append (hearlier : Earlier (xs ++ ys) a b) (hb : b ∈ xs) : Earlier xs a b := by
  have hlt := List.idxOf_lt_length_of_mem hb
  by_cases ha : a ∈ xs
  · rwa [Earlier, List.idxOf_append_of_mem ha, List.idxOf_append_of_mem hb] at hearlier
  · rw [Earlier, List.idxOf_append_of_notMem ha, List.idxOf_append_of_mem hb] at hearlier
    omega

/-- Who called first is granted first. -/
def ServedInOrder (calls grants : List α) : Prop :=
  ∀ a b, b ∈ grants → Earlier calls a b → Earlier grants a b

/-- An order that is broken stays broken. -/
theorem ServedInOrder.of_append {later given : List α}
    (hserved : ServedInOrder (calls ++ later) (grants ++ given)) : ServedInOrder calls grants := by
  intro a b hb hearlier
  exact (hserved a b (List.mem_append_left _ hb) (hearlier.append later)).of_append hb

/-- A new caller is granted ahead of one that has called. -/
theorem not_servedInOrder (ha : a ∈ calls) (hgrants : a ∉ grants) (hb : b ∉ calls) :
    ¬ ServedInOrder (calls ++ [b]) (grants ++ [b]) := by
  intro hserved
  have hearlier := hserved a b (by simp) ((earlier_of_notMem ha hb).append [b])
  rcases List.mem_append.mp hearlier.mem with hmem | hmem
  · exact hgrants hmem
  · exact hb (List.mem_singleton.mp hmem ▸ ha)

/-- The callers by their first calls are those granted and then those pending. -/
structure FirstCome (calls grants pending : List α) : Prop where
  mem : ∀ a, a ∈ calls ↔ a ∈ grants ++ pending
  ordered : (grants ++ pending).Pairwise (Earlier calls)

namespace FirstCome

theorem nil : FirstCome ([] : List α) [] [] := ⟨by simp, .nil⟩

/-- A new caller takes the last place. -/
theorem join (hfirst : FirstCome calls grants pending) (hnew : a ∉ calls) :
    FirstCome (calls ++ [a]) grants (pending ++ [a]) := by
  constructor
  · intro b
    rw [← List.append_assoc, List.mem_append, hfirst.mem, List.mem_append (s := grants ++ pending)]
  · rw [← List.append_assoc, List.pairwise_append]
    refine ⟨hfirst.ordered.imp fun hearlier => hearlier.append [a], List.pairwise_singleton _ _, ?_⟩
    intro b hb a' ha
    rw [List.mem_singleton.mp ha]
    exact (earlier_of_notMem ((hfirst.mem b).mpr hb) hnew).append [a]

/-- Another call changes nothing. -/
theorem again (hfirst : FirstCome calls grants pending) (hold : a ∈ calls) :
    FirstCome (calls ++ [a]) grants pending := by
  constructor
  · intro b
    rw [← hfirst.mem, List.mem_append, List.mem_singleton]
    exact or_iff_left_of_imp fun hb => hb ▸ hold
  · exact hfirst.ordered.imp fun hearlier => hearlier.append [a]

/-- The first one pending is granted. -/
theorem serve (hfirst : FirstCome calls grants (a :: pending)) :
    FirstCome calls (grants ++ [a]) pending := by
  have hsplit : grants ++ [a] ++ pending = grants ++ a :: pending := by simp
  exact ⟨hsplit ▸ hfirst.mem, hsplit ▸ hfirst.ordered⟩

theorem notMem_grants (hfirst : FirstCome calls grants pending) (ha : a ∈ pending) :
    a ∉ grants := fun hgrants =>
  Nat.lt_irrefl _ ((List.pairwise_append.mp hfirst.ordered).2.2 a hgrants a ha)

theorem servedInOrder (hfirst : FirstCome calls grants pending) :
    ServedInOrder calls grants := by
  intro a b hb hearlier
  obtain ⟨hgranted, -, hboth⟩ := List.pairwise_append.mp hfirst.ordered
  rcases List.mem_append.mp ((hfirst.mem a).mp hearlier.mem) with ha | ha
  · by_contra hlate
    -- the grants before that of `a` are to earlier callers
    have hia := List.idxOf_lt_length_of_mem ha
    have hib := List.idxOf_lt_length_of_mem hb
    rcases Nat.lt_or_eq_of_le (Nat.not_lt.mp hlate) with hlt | heq
    · have hrel := List.pairwise_iff_getElem.mp hgranted _ _ hib hia hlt
      rw [List.getElem_idxOf hib, List.getElem_idxOf hia] at hrel
      exact hearlier.asymm hrel
    · rw [(List.idxOf_inj hb).mp heq] at hearlier
      exact Nat.lt_irrefl _ hearlier
  · exact absurd (hboth b hb a ha) hearlier.asymm

end FirstCome

end OperatingSystem
