import Mathlib.Algebra.Order.BigOperators.Group.List
import Mathlib.Data.List.Basic
import Mathlib.Algebra.BigOperators.Fin
import Mathlib.Data.Finset.Card
import Mathlib.Data.Fintype.Card

/-!
# Loops over lists, counts and cycles over finite types

The rule for a loop whose body may fail, the search loops that keep the best element
seen so far, the effect of one assignment on the number of indices that satisfy a
predicate, and the cycle of a relation under which everything has a successor.
-/

namespace OperatingSystem

@[simp] theorem ok_bind {α β ε : Type} (value : α) (next : α → Except ε β) :
    (Except.ok value >>= next) = next value := rfl

/-- What succeeds as a whole succeeds in its parts. -/
theorem of_bind_ok {α β ε : Type} {first : Except ε α} {next : α → Except ε β} {result : β}
    (hbind : first >>= next = .ok result) :
    ∃ value, first = .ok value ∧ next value = .ok result := by
  cases first with
  | ok value => exact ⟨value, rfl, hbind⟩
  | error fault => cases hbind

@[simp] theorem ok_mapError {α ε ε' : Type} (value : α) (f : ε → ε') :
    (Except.ok value : Except ε α).mapError f = .ok value := rfl

/-- A function on the result does not change how a computation fails. -/
@[simp] theorem map_eq_error {α β ε : Type} {f : α → β} {first : Except ε α} {fault : ε} :
    first.map f = .error fault ↔ first = .error fault := by
  cases first <;> simp [Except.map]

/-- A relation to the start that every turn of a loop keeps holds of its result, if it has one. -/
theorem foldlM_related {α σ ε : Type} {body : σ → α → Except ε σ} (Rel : σ → σ → Prop)
    (hrefl : ∀ state, Rel state state)
    (hbody : ∀ start state x next, Rel start state → body state x = .ok next → Rel start next)
    {xs : List α} {start final : σ} (hfinal : xs.foldlM body start = .ok final) :
    Rel start final := by
  suffices hgen : ∀ state, Rel start state → xs.foldlM body state = .ok final → Rel start final from
    hgen start (hrefl start) hfinal
  clear hfinal
  induction xs with
  | nil =>
      intro state hrel hfinal
      cases hfinal
      exact hrel
  | cons x xs ih =>
      intro state hrel hfinal
      rw [List.foldlM_cons] at hfinal
      obtain ⟨next, hnext, hrest⟩ := of_bind_ok hfinal
      exact ih next (hbody _ _ _ _ hrel hnext) hrest

/-- The rule for `for x in xs do state := body state x`. The invariant speaks of the
elements already visited, and the body may use the place of `x` in the list. -/
theorem foldlM_invariant {α σ ε : Type*} {body : σ → α → Except ε σ} (Inv : List α → σ → Prop)
    {xs : List α} {start : σ} (hinit : Inv [] start)
    (hbody : ∀ done x rest state, xs = done ++ x :: rest → Inv done state →
      ∃ next, body state x = .ok next ∧ Inv (done ++ [x]) next) :
    ∃ final, xs.foldlM body start = .ok final ∧ Inv xs final := by
  suffices hgen : ∀ rest done state, xs = done ++ rest → Inv done state →
      ∃ final, rest.foldlM body state = .ok final ∧ Inv xs final from
    hgen xs [] start rfl hinit
  intro rest
  induction rest with
  | nil =>
      intro done state hsplit hinv
      rw [List.append_nil] at hsplit
      exact ⟨state, rfl, hsplit ▸ hinv⟩
  | cons x rest ih =>
      intro done state hsplit hinv
      obtain ⟨next, hnext, hinv'⟩ := hbody done x rest state hsplit hinv
      obtain ⟨final, hfinal, hinvFinal⟩ :=
        ih (done ++ [x]) next (by rw [hsplit, List.append_assoc]; rfl) hinv'
      refine ⟨final, ?_, hinvFinal⟩
      rw [List.foldlM_cons, hnext]
      exact hfinal

/-- The loop `for x in xs do if key best < key x then best := x`. -/
def scanMax {α κ : Type*} [LT κ] [DecidableLT κ] (key : α → κ) (best : α) (xs : List α) : α :=
  xs.foldl (fun best x => if key best < key x then x else best) best

theorem scanMax_cons {α κ : Type*} [LT κ] [DecidableLT κ] (key : α → κ) (best x : α)
    (xs : List α) :
    scanMax key best (x :: xs) = scanMax key (if key best < key x then x else best) xs := rfl

theorem scanMax_mem {α κ : Type*} [LT κ] [DecidableLT κ] (key : α → κ) (best : α)
    (xs : List α) : scanMax key best xs = best ∨ scanMax key best xs ∈ xs := by
  induction xs generalizing best with
  | nil => exact .inl rfl
  | cons x xs ih =>
      rw [scanMax_cons]
      rcases ih (if key best < key x then x else best) with heq | hmem
      · rw [heq]
        by_cases hlt : key best < key x
        · simp [hlt]
        · simp [hlt]
      · exact .inr (List.mem_cons_of_mem _ hmem)

theorem scanMax_mem_of_mem {α κ : Type*} [LT κ] [DecidableLT κ] (key : α → κ) {best : α}
    {xs : List α} (hbest : best ∈ xs) : scanMax key best xs ∈ xs := by
  rcases scanMax_mem key best xs with heq | hmem
  · rw [heq]
    exact hbest
  · exact hmem

theorem le_scanMax {α κ : Type*} [LinearOrder κ] (key : α → κ) (best : α) (xs : List α) :
    key best ≤ key (scanMax key best xs) ∧ ∀ x ∈ xs, key x ≤ key (scanMax key best xs) := by
  induction xs generalizing best with
  | nil => exact ⟨le_rfl, by simp⟩
  | cons x xs ih =>
      obtain ⟨hbest, hrest⟩ := ih (if key best < key x then x else best)
      rw [← scanMax_cons] at hbest hrest
      have hboth : key best ≤ key (scanMax key best (x :: xs)) ∧
          key x ≤ key (scanMax key best (x :: xs)) := by
        by_cases hlt : key best < key x
        · rw [if_pos hlt] at hbest
          exact ⟨hlt.le.trans hbest, hbest⟩
        · rw [if_neg hlt] at hbest
          exact ⟨hbest, (not_lt.mp hlt).trans hbest⟩
      refine ⟨hboth.1, fun y hy => ?_⟩
      rcases List.mem_cons.mp hy with rfl | hy
      · exact hboth.2
      · exact hrest y hy

/-- The loop `for x in xs do if key x < key best then best := x`. -/
def scanMin {α κ : Type*} [LT κ] [DecidableLT κ] (key : α → κ) (best : α) (xs : List α) : α :=
  xs.foldl (fun best x => if key x < key best then x else best) best

/-- Looking for the least key is looking for the greatest in the reversed order. -/
theorem scanMin_eq_scanMax {α κ : Type*} [LT κ] [DecidableLT κ] (key : α → κ) (best : α)
    (xs : List α) : scanMin key best xs = scanMax (fun x => OrderDual.toDual (key x)) best xs := rfl

theorem scanMin_mem_of_mem {α κ : Type*} [LT κ] [DecidableLT κ] (key : α → κ) {best : α}
    {xs : List α} (hbest : best ∈ xs) : scanMin key best xs ∈ xs := by
  rw [scanMin_eq_scanMax]
  exact scanMax_mem_of_mem (fun x => OrderDual.toDual (key x)) hbest

/-- The loop `for x in xs do if key x < bound then (best, bound) := (x, key x)`. -/
def scanBelow {α κ : Type*} [LT κ] [DecidableLT κ] (key : α → κ) (bound : κ) (xs : List α) :
    Option α × κ :=
  xs.foldl (fun found x => if key x < found.2 then (some x, key x) else found) (none, bound)

/-- No element has a smaller key than `x`, and no element before `x` the same. -/
def FirstLeast {α κ : Type*} [LinearOrder κ] (key : α → κ) (xs : List α) (x : α) : Prop :=
  ∃ before after, xs = before ++ x :: after ∧ (∀ y ∈ before, key x < key y) ∧
    ∀ y ∈ after, key x ≤ key y

section FirstLeast

variable {α κ : Type*} [LinearOrder κ] {key : α → κ} {xs : List α} {x : α}

theorem FirstLeast.mem (hleast : FirstLeast key xs x) : x ∈ xs := by
  obtain ⟨before, after, rfl, -, -⟩ := hleast
  simp

theorem FirstLeast.le (hleast : FirstLeast key xs x) {y : α} (hy : y ∈ xs) : key x ≤ key y := by
  obtain ⟨before, after, rfl, hbefore, hafter⟩ := hleast
  rcases List.mem_append.mp hy with hy | hy
  · exact (hbefore y hy).le
  · rcases List.mem_cons.mp hy with rfl | hy
    · exact le_rfl
    · exact hafter y hy

theorem FirstLeast.snoc (hleast : FirstLeast key xs x) (y : α) :
    FirstLeast key (xs ++ [y]) (if key y < key x then y else x) := by
  by_cases hlt : key y < key x
  · rw [if_pos hlt]
    exact ⟨xs, [], rfl, fun z hz => hlt.trans_le (hleast.le hz), by simp⟩
  · rw [if_neg hlt]
    obtain ⟨before, after, rfl, hbefore, hafter⟩ := hleast
    refine ⟨before, after ++ [y], by simp, hbefore, fun z hz => ?_⟩
    rcases List.mem_append.mp hz with hz | hz
    · exact hafter z hz
    · rw [List.mem_singleton.mp hz]
      exact not_lt.mp hlt

/-- An element is the first least one if no other comes ahead of it, by key and then by place. -/
theorem firstLeast_iff [DecidableEq α] : FirstLeast key xs x ↔ x ∈ xs ∧
    ∀ y ∈ xs, ¬ (key y < key x ∨ key y = key x ∧ xs.idxOf y < xs.idxOf x) := by
  constructor
  · intro hleast
    refine ⟨hleast.mem, fun y hy hahead => ?_⟩
    rcases hahead with hlt | ⟨heq, hidx⟩
    · exact absurd (hleast.le hy) (not_le.mpr hlt)
    · obtain ⟨before, after, rfl, hbefore, -⟩ := hleast
      have hx : x ∉ before := fun hx => lt_irrefl _ (hbefore x hx)
      have hy' : y ∉ before := fun hy => absurd heq (hbefore y hy).ne'
      rw [List.idxOf_append_of_notMem hx, List.idxOf_append_of_notMem hy', List.idxOf_cons_self]
        at hidx
      omega
  · rintro ⟨hx, hahead⟩
    refine ⟨xs.take (xs.idxOf x), xs.drop (xs.idxOf x + 1), ?_, fun y hy => ?_, fun y hy => ?_⟩
    · have hlt := List.idxOf_lt_length_of_mem hx
      have hdrop := List.drop_eq_getElem_cons hlt
      rw [List.getElem_idxOf hlt] at hdrop
      rw [← hdrop, List.take_append_drop]
    · have hmem := List.mem_of_mem_take hy
      have hidx := (List.mem_take_iff_idxOf_lt hmem).mp hy
      have hnot := hahead y hmem
      rw [not_or, not_and, not_lt] at hnot
      exact hnot.1.lt_of_ne fun heq => hnot.2 heq.symm hidx
    · have hnot := hahead y (List.mem_of_mem_drop hy)
      rw [not_or, not_lt] at hnot
      exact hnot.1

/-- The first least element comes ahead of all others. -/
theorem FirstLeast.ahead [DecidableEq α] (hleast : FirstLeast key xs x) {y : α} (hy : y ∈ xs)
    (hne : x ≠ y) : key x < key y ∨ key x = key y ∧ xs.idxOf x < xs.idxOf y := by
  rcases (hleast.le hy).lt_or_eq with hlt | heq
  · exact .inl hlt
  · have hnot := (firstLeast_iff.mp hleast).2 y hy
    rw [not_or, not_and, not_lt] at hnot
    have hidx : xs.idxOf x ≠ xs.idxOf y := fun hidx => hne ((List.idxOf_inj hleast.mem).mp hidx)
    exact .inr ⟨heq, (not_lt.mp (hnot.2 heq.symm)).lt_of_ne hidx⟩

theorem FirstLeast.unique {y : α} (hx : FirstLeast key xs x) (hy : FirstLeast key xs y) :
    x = y := by
  classical
  by_contra hne
  exact (firstLeast_iff.mp hy).2 x hx.mem (hx.ahead hy.mem hne)

/-- A second visit to the first element finds nothing new. -/
theorem FirstLeast.tail {first : α} {rest : List α}
    (hleast : FirstLeast key (first :: first :: rest) x) : FirstLeast key (first :: rest) x := by
  obtain ⟨before, after, hsplit, hbefore, hafter⟩ := hleast
  rcases List.cons_eq_append_iff.mp hsplit with ⟨rfl, htail⟩ | ⟨before', rfl, htail⟩
  · obtain ⟨rfl, rfl⟩ := List.cons.inj htail
    exact ⟨[], rest, rfl, by simp, fun y hy => hafter y (List.mem_cons_of_mem _ hy)⟩
  · exact ⟨before', after, htail, fun y hy => hbefore y (List.mem_cons_of_mem _ hy), hafter⟩

theorem scanMin_firstLeast (key : α → κ) (best : α) (xs : List α) :
    FirstLeast key (best :: xs) (scanMin key best xs) := by
  induction xs using List.reverseRecOn with
  | nil => exact ⟨[], [], rfl, by simp, by simp⟩
  | append_singleton xs y ih =>
      have hsnoc := ih.snoc y
      rw [scanMin, List.foldl_append]
      exact hsnoc

/-- No element has a greater key than `x`, and no element before `x` the same. -/
def FirstGreatest {α κ : Type*} [LinearOrder κ] (key : α → κ) (xs : List α) (x : α) : Prop :=
  ∃ before after, xs = before ++ x :: after ∧ (∀ y ∈ before, key y < key x) ∧
    ∀ y ∈ after, key y ≤ key x

/-- The first greatest element is the first least one in the reversed order. -/
theorem firstGreatest_iff_dual : FirstGreatest key xs x ↔
    FirstLeast (fun y => OrderDual.toDual (key y)) xs x := Iff.rfl

/-- A scan from the first element on finds the first greatest one. -/
theorem scanMax_firstGreatest (key : α → κ) (best : α) (xs : List α) :
    FirstGreatest key (best :: xs) (scanMax key best (best :: xs)) :=
  (scanMin_firstLeast (fun y => OrderDual.toDual (key y)) best (best :: xs)).tail

/-- A scan that starts below a bound finds the first least element, unless the bound is in its
way. -/
theorem scanBelow_spec (key : α → κ) (bound : κ) (xs : List α) :
    (∃ x, scanBelow key bound xs = (some x, key x) ∧ key x < bound ∧ FirstLeast key xs x) ∨
      scanBelow key bound xs = (none, bound) ∧ ∀ x ∈ xs, bound ≤ key x := by
  induction xs using List.reverseRecOn with
  | nil => exact .inr ⟨rfl, by simp⟩
  | append_singleton xs y ih =>
      have hstep : scanBelow key bound (xs ++ [y]) =
          if key y < (scanBelow key bound xs).2 then (some y, key y)
          else scanBelow key bound xs := by
        rw [scanBelow, List.foldl_append]
        rfl
      rw [hstep]
      rcases ih with ⟨x, hfound, hbelow, hleast⟩ | ⟨hnone, habove⟩
      · left
        refine ⟨if key y < key x then y else x, ?_, ?_, hleast.snoc y⟩
        · rw [hfound]
          by_cases hlt : key y < key x <;> simp [hlt]
        · by_cases hlt : key y < key x
          · simpa [hlt] using hlt.trans hbelow
          · simpa [hlt] using hbelow
      · rw [hnone]
        by_cases hlt : key y < bound
        · refine .inl ⟨y, by simp [hlt], hlt, xs, [], rfl, fun z hz => ?_, by simp⟩
          exact hlt.trans_le (habove z hz)
        · refine .inr ⟨by simp [hlt], fun z hz => ?_⟩
          rcases List.mem_append.mp hz with hz | hz
          · exact habove z hz
          · rw [List.mem_singleton.mp hz]
            exact not_lt.mp hlt

end FirstLeast

/-- Two elements of a list that are not related are one. -/
theorem pairwise_index {α : Type*} {R : α → α → Prop} {xs : List α} (hpairwise : xs.Pairwise R)
    {i j : Nat} {x y : α} (hx : xs[i]? = some x) (hy : xs[j]? = some y) (hxy : ¬ R x y)
    (hyx : ¬ R y x) : i = j := by
  obtain ⟨hi, rfl⟩ := List.getElem?_eq_some_iff.mp hx
  obtain ⟨hj, rfl⟩ := List.getElem?_eq_some_iff.mp hy
  rcases lt_trichotomy i j with hlt | heq | hlt
  · exact absurd (List.pairwise_iff_getElem.mp hpairwise i j hi hj hlt) hxy
  · exact heq
  · exact absurd (List.pairwise_iff_getElem.mp hpairwise j i hj hi hlt) hyx

/-- Every element satisfies the predicate, which may speak of the elements before it. -/
def Along {α : Type*} (P : List α → α → Prop) (xs : List α) : Prop :=
  ∀ before x after, xs = before ++ x :: after → P before x

theorem Along.nil {α : Type*} (P : List α → α → Prop) : Along P [] := by
  intro before x after hsplit
  simp at hsplit

theorem along_cons {α : Type*} {P : List α → α → Prop} {x : α} {xs : List α} :
    Along P (x :: xs) ↔ P [] x ∧ Along (fun before => P (x :: before)) xs := by
  constructor
  · exact fun halong => ⟨halong [] x xs rfl, fun before y after hsplit =>
      halong (x :: before) y after (by rw [hsplit, List.cons_append])⟩
  · rintro ⟨hx, halong⟩ before y after hsplit
    cases before with
    | nil =>
        obtain ⟨rfl, -⟩ := List.cons.inj hsplit
        exact hx
    | cons z before =>
        obtain ⟨rfl, htail⟩ := List.cons.inj hsplit
        exact halong before y after htail

theorem along_append {α : Type*} {P : List α → α → Prop} {xs ys : List α} :
    Along P (xs ++ ys) ↔ Along P xs ∧ Along (fun before => P (xs ++ before)) ys := by
  induction xs generalizing P with
  | nil => simp [Along.nil]
  | cons x xs ih => simp only [List.cons_append, along_cons, ih, and_assoc]

theorem Along.snoc {α : Type*} {P : List α → α → Prop} {xs : List α} {x : α} (halong : Along P xs)
    (hx : P xs x) : Along P (xs ++ [x]) := by
  rw [along_append, along_cons, List.append_nil]
  exact ⟨halong, hx, Along.nil _⟩

theorem Along.append {α : Type*} {P : List α → α → Prop} {xs ys : List α} (halong : Along P xs)
    (hys : ∀ y ∈ ys, ∀ before, P before y) : Along P (xs ++ ys) := by
  refine along_append.mpr ⟨halong, fun before y after hsplit => ?_⟩
  have hy : y ∈ ys := by simp [hsplit]
  exact hys y hy _

/-- Two predicates that agree off one index: their counts differ by what they say
there. -/
theorem card_filter_update {ι : Type*} [Fintype ι] [DecidableEq ι] (p q : ι → Prop)
    [DecidablePred p] [DecidablePred q] (i : ι) (hoff : ∀ j, j ≠ i → (p j ↔ q j)) :
    (Finset.univ.filter p).card + (if q i then 1 else 0) =
      (Finset.univ.filter q).card + (if p i then 1 else 0) := by
  have hsplit : ∀ (r : ι → Prop) [DecidablePred r], (Finset.univ.filter r).card =
      (if r i then 1 else 0) + ∑ j ∈ Finset.univ.erase i, if r j then 1 else 0 := by
    intro r _
    rw [Finset.card_filter, ← Finset.add_sum_erase _ _ (Finset.mem_univ i)]
  have hrest : (∑ j ∈ Finset.univ.erase i, if p j then 1 else 0) =
      ∑ j ∈ Finset.univ.erase i, if q j then 1 else 0 := by
    refine Finset.sum_congr rfl fun j hj => ?_
    have hiff := hoff j (Finset.ne_of_mem_erase hj)
    by_cases hp : p j
    · rw [if_pos hp, if_pos (hiff.mp hp)]
    · rw [if_neg hp, if_neg fun hq => hp (hiff.mpr hq)]
  rw [hsplit p, hsplit q, hrest]
  omega

/-- Counting over the cells of a square table, row by row. -/
theorem card_filter_rows {size : Nat} (p : Fin size → Fin size → Prop)
    [∀ i j, Decidable (p i j)] :
    (Finset.univ.filter fun cell : Fin (size * size) => p cell.divNat cell.modNat).card =
      ((List.finRange size).map fun i =>
        ((List.finRange size).map fun j => if p i j then 1 else 0).sum).sum := by
  rw [Finset.card_filter, ← Fin.sum_univ_def]
  simp only [← Fin.sum_univ_def]
  rw [← Fintype.sum_prod_type' fun i j => if p i j then 1 else 0]
  exact (Equiv.sum_comp finProdFinEquiv.symm
    (fun cell : Fin size × Fin size => if p cell.1 cell.2 then 1 else 0))

/-- If no factor of a product is larger than one of another, the products are the same if a
factor of the other is 0 or all factors are the same. -/
theorem prod_map_eq_iff {α : Type*} {f g : α → Nat} {xs : List α} (hle : ∀ x ∈ xs, f x ≤ g x) :
    (xs.map f).prod = (xs.map g).prod ↔ (∃ x ∈ xs, g x = 0) ∨ ∀ x ∈ xs, f x = g x := by
  by_cases hzero : ∃ x ∈ xs, g x = 0
  · obtain ⟨x, hx, hgx⟩ := hzero
    have hfx : f x = 0 := Nat.le_zero.mp (hgx ▸ hle x hx)
    rw [List.prod_eq_zero (List.mem_map.mpr ⟨x, hx, hfx⟩),
      List.prod_eq_zero (List.mem_map.mpr ⟨x, hx, hgx⟩)]
    exact ⟨fun _ => .inl ⟨x, hx, hgx⟩, fun _ => rfl⟩
  · simp only [hzero, false_or]
    refine ⟨fun hprod => ?_, fun hall => by rw [List.map_congr_left hall]⟩
    induction xs with
    | nil => simp
    | cons x xs ih =>
        obtain ⟨hx, hle⟩ := List.forall_mem_cons.mp hle
        rw [List.exists_mem_cons_iff, not_or] at hzero
        have hrest : (xs.map f).prod ≤ (xs.map g).prod := List.prod_le_prod' hle
        have hpos : 0 < (xs.map g).prod := by
          rw [Nat.pos_iff_ne_zero, Ne, List.prod_eq_zero_iff, List.mem_map]
          exact hzero.2
        rw [List.map_cons, List.map_cons, List.prod_cons, List.prod_cons] at hprod
        have hsame : f x = g x := by
          refine le_antisymm hx (Nat.le_of_mul_le_mul_right ?_ hpos)
          rw [← hprod]
          exact Nat.mul_le_mul_left _ hrest
        rw [hsame] at hprod
        have htail := Nat.eq_of_mul_eq_mul_left (Nat.pos_of_ne_zero hzero.1) hprod
        exact List.forall_mem_cons.mpr ⟨hsame, ih hle hzero.2 htail⟩

/-- If every element of a nonempty set is related to one of the set, the relation has a
cycle in the set. -/
theorem exists_cycle {α : Type*} [Finite α] {R : α → α → Prop} {S : Set α} {a : α} (ha : a ∈ S)
    (hsucc : ∀ x ∈ S, ∃ y ∈ S, R x y) : ∃ x ∈ S, Relation.TransGen R x x := by
  by_contra hacyclic
  -- descending along the relation inside `S` would be well founded
  let Below : α → α → Prop := fun y x => x ∈ S ∧ Relation.TransGen R x y ∧ y ∈ S
  have htrans : IsTrans α Below :=
    ⟨fun _ _ _ hyx hzy => ⟨hzy.1, hzy.2.1.trans hyx.2.1, hyx.2.2⟩⟩
  have hirrefl : Std.Irrefl Below := ⟨fun x hx => hacyclic ⟨x, hx.1, hx.2.1⟩⟩
  have hwf : WellFounded Below := Finite.wellFounded_of_trans_of_irrefl Below
  obtain ⟨x, hx, hmin⟩ := hwf.has_min S ⟨a, ha⟩
  obtain ⟨y, hy, hxy⟩ := hsucc x hx
  exact hmin y hy ⟨hx, .single hxy, hy⟩

end OperatingSystem
