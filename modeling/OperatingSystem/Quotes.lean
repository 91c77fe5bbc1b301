import Mathlib.Data.List.Induction
import OperatingSystem.Words

/-!
# The words of a text with quotations

Each second mark of quotation ends what the one before it has begun, and a separator between the
two does not separate words. A text without a separator outside of its quotations is one word; any
other is split at the first such separator.
-/

namespace OperatingSystem

variable {α : Type*} (sep quote : α → Bool)

/-- The text, each element with whether it is in a quotation; the mark that begins one is not. -/
def quoted : Bool → List α → List (α × Bool)
  | _, [] => []
  | inside, x :: text => (x, inside) :: quoted (inside ^^ quote x) text

/-- A quotation is open at the end of the text. -/
def opened (text : List α) : Bool := text.countP quote % 2 = 1

/-- The separators outside of quotations. -/
def outerSep (x : α × Bool) : Bool := sep x.1 && !x.2

/-- The words, with their marks of quotation. -/
def quotedWords (text : List α) : List (List α) :=
  (words (outerSep sep) (quoted quote false text)).map (List.map Prod.fst)

/-- No separator is outside of a quotation. -/
def Unbroken (text : List α) : Prop := ∀ x ∈ quoted quote false text, outerSep sep x = false

variable {sep quote}

@[simp] theorem opened_nil : opened quote [] = false := rfl

theorem opened_append (before after : List α) :
    opened quote (before ++ after) = (opened quote before ^^ opened quote after) := by
  simp only [opened, List.countP_append]
  rcases Nat.mod_two_eq_zero_or_one (before.countP quote) with hbefore | hbefore <;>
    rcases Nat.mod_two_eq_zero_or_one (after.countP quote) with hafter | hafter <;>
    simp [Nat.add_mod, hbefore, hafter]

@[simp] theorem opened_singleton (x : α) : opened quote [x] = quote x := by
  cases hx : quote x <;> simp [opened, hx]

theorem quoted_append (inside : Bool) (before after : List α) :
    quoted quote inside (before ++ after) =
      quoted quote inside before ++ quoted quote (inside ^^ opened quote before) after := by
  induction before generalizing inside with
  | nil => simp [quoted]
  | cons x before ih =>
      have hopened : opened quote ([x] ++ before) = _ := opened_append [x] before
      rw [List.singleton_append, opened_singleton] at hopened
      rw [List.cons_append, quoted, quoted, ih, hopened, Bool.xor_assoc, List.cons_append]

theorem map_fst_quoted (quote : α → Bool) (inside : Bool) (text : List α) :
    (quoted quote inside text).map Prod.fst = text := by
  induction text generalizing inside with
  | nil => rfl
  | cons x text ih => rw [quoted, List.map_cons, ih]

theorem unbroken_snoc (run : List α) (x : α) :
    Unbroken sep quote (run ++ [x]) ↔
      Unbroken sep quote run ∧ (sep x = true → opened quote run = true) := by
  have hlast : quoted quote (false ^^ opened quote run) [x] = [(x, opened quote run)] := by
    simp [quoted]
  simp only [Unbroken, quoted_append, hlast, List.forall_mem_append, List.forall_mem_singleton]
  simp [outerSep]

theorem unbroken_nil : Unbroken sep quote [] := by
  intro x hx
  cases hx

theorem Unbroken.of_append {run rest : List α} (hrun : Unbroken sep quote (run ++ rest)) :
    Unbroken sep quote run := by
  intro x hx
  exact hrun x (by rw [quoted_append]; exact List.mem_append_left _ hx)

/-- A text is one word, or it is split at the first separator outside of its quotations. -/
theorem unbroken_or_split (sep quote : α → Bool) (text : List α) : Unbroken sep quote text ∨
    ∃ run x rest, text = run ++ x :: rest ∧ Unbroken sep quote run ∧ opened quote run = false ∧
      sep x = true := by
  induction text using List.reverseRecOn with
  | nil => exact .inl unbroken_nil
  | append_singleton text y ih =>
      rcases ih with hrun | ⟨run, x, rest, rfl, hsplit⟩
      · by_cases hsep : sep y = true → opened quote text = true
        · exact .inl ((unbroken_snoc text y).mpr ⟨hrun, hsep⟩)
        · rw [Classical.not_imp, Bool.not_eq_true] at hsep
          exact .inr ⟨text, y, [], rfl, hrun, hsep.2, hsep.1⟩
      · exact .inr ⟨run, x, rest ++ [y], by simp, hsplit⟩

/-! ## The words -/

@[simp] theorem quotedWords_nil : quotedWords sep quote [] = [] := rfl

theorem quotedWords_of_unbroken {run : List α} (hne : run ≠ []) (hrun : Unbroken sep quote run) :
    quotedWords sep quote run = [run] := by
  have hquoted : quoted quote false run ≠ [] := by
    intro hnil
    rw [← map_fst_quoted quote false run, hnil] at hne
    exact hne rfl
  rw [quotedWords, words_of_run hquoted hrun, List.map_singleton, map_fst_quoted]

/-- The words consist of what does not separate, with the separators in the quotations. -/
theorem quotedWords_flatten (text : List α) : (quotedWords sep quote text).flatten =
    ((quoted quote false text).filter fun x => !outerSep sep x).map Prod.fst := by
  rw [quotedWords, ← List.map_flatten, words_flatten]

section Split

variable (hquote : ∀ x, sep x = true → quote x = false)
include hquote

/-- The words are those before a separator outside of the quotations, and those after it. -/
theorem quotedWords_split {before : List α} {x : α} (hopened : opened quote before = false)
    (hx : sep x = true) (after : List α) : quotedWords sep quote (before ++ x :: after) =
      quotedWords sep quote before ++ quotedWords sep quote after := by
  have houter : outerSep sep (x, false) = true := by simp [outerSep, hx]
  rw [quotedWords, quoted_append, hopened, Bool.false_xor, quoted, hquote x hx, Bool.false_xor,
    words_append_sep houter, List.map_append]
  rfl

/-- Separators in front of the words. -/
theorem quotedWords_gap {gap : List α} (hgap : ∀ x ∈ gap, sep x = true) (text : List α) :
    quotedWords sep quote (gap ++ text) = quotedWords sep quote text := by
  induction gap with
  | nil => rfl
  | cons x gap ih =>
      obtain ⟨hx, hgap⟩ := List.forall_mem_cons.mp hgap
      have hnone : opened quote ([] : List α) = false := opened_nil
      have hsplit := quotedWords_split hquote hnone hx (gap ++ text)
      rw [List.cons_append, ← List.nil_append (x :: _), hsplit, quotedWords_nil, List.nil_append,
        ih hgap]

/-- A property of the text that its parts before and after a separator inherit holds of each
word. -/
theorem forall_quotedWords {P : List α → Prop}
    (hsplit : ∀ run x rest, opened quote run = false → sep x = true → P (run ++ x :: rest) →
      P run ∧ P rest) {text : List α} (htext : P text) :
    ∀ word ∈ quotedWords sep quote text, word ≠ [] ∧ Unbroken sep quote word ∧ P word := by
  have hword : ∀ run, Unbroken sep quote run → P run → ∀ word ∈ quotedWords sep quote run,
      word ≠ [] ∧ Unbroken sep quote word ∧ P word := by
    intro run hrun hP word hword
    rcases eq_or_ne run [] with rfl | hne
    · cases hword
    · rw [quotedWords_of_unbroken hne hrun, List.mem_singleton] at hword
      exact hword ▸ ⟨hne, hrun, hP⟩
  generalize hsize : text.length = size
  induction size using Nat.strong_induction_on generalizing text with
  | _ size ih =>
      rcases unbroken_or_split sep quote text with
        hrun | ⟨run, x, rest, rfl, hrun, hclosed, hx⟩
      · exact hword text hrun htext
      · obtain ⟨hPrun, hPrest⟩ := hsplit run x rest hclosed hx htext
        have hlt : rest.length < size := by
          rw [← hsize, List.length_append, List.length_cons]
          omega
        rw [quotedWords_split hquote hclosed hx, List.forall_mem_append]
        exact ⟨hword run hrun hPrun, ih rest.length hlt hPrest rfl⟩

end Split

end OperatingSystem
