import Mathlib.Data.List.Basic
import Mathlib.Data.List.TakeWhile

/-!
# The words of a text

A word is a maximal run of elements that are no separators. A scan from left to right finds the
places where words start; the word at such a place is the longest run from there on, and it ends
before the next word starts.
-/

namespace OperatingSystem

variable {α : Type*} (sep : α → Bool)

/-- The maximal runs of elements that do not separate. -/
def words (text : List α) : List (List α) := (text.splitOnP sep).filter fun word => !word.isEmpty

/-- The longest run at the front. -/
def firstRun (text : List α) : List α := text.takeWhile fun x => !sep x

/-- What comes after it. -/
def afterRun (text : List α) : List α := text.dropWhile fun x => !sep x

@[simp] theorem words_nil : words sep [] = [] := by simp [words]

theorem firstRun_append_afterRun (text : List α) : firstRun sep text ++ afterRun sep text = text :=
  List.takeWhile_append_dropWhile

theorem mem_firstRun {text : List α} {x : α} (hx : x ∈ firstRun sep text) : sep x = false := by
  simpa using List.mem_takeWhile_imp hx

variable {sep}

/-- A text is split at a separator. -/
theorem words_append_sep {x : α} (hx : sep x = true) (before after : List α) :
    words sep (before ++ x :: after) = words sep before ++ words sep after := by
  rw [words, List.splitOnP_append_cons before after hx, List.filter_append]
  rfl

theorem words_cons_sep {x : α} (hx : sep x = true) (text : List α) :
    words sep (x :: text) = words sep text := by
  have hsplit := words_append_sep hx [] text
  rwa [words_nil] at hsplit

theorem words_of_run {run : List α} (hne : run ≠ []) (hrun : ∀ x ∈ run, sep x = false) :
    words sep run = [run] := by
  rw [words, List.splitOnP_eq_singleton hrun]
  simp [hne]

theorem words_cons {x : α} (hx : sep x = false) (text : List α) :
    words sep (x :: text) = (x :: firstRun sep text) :: words sep (afterRun sep text) := by
  have hrun : ∀ y ∈ x :: firstRun sep text, sep y = false := by
    intro y hy
    rcases List.mem_cons.mp hy with rfl | hy
    · exact hx
    · exact mem_firstRun sep hy
  have hword := words_of_run (List.cons_ne_nil x _) hrun
  have htext := firstRun_append_afterRun sep text
  cases hafter : afterRun sep text with
  | nil =>
      rw [hafter, List.append_nil] at htext
      rw [words_nil, ← hword, htext]
  | cons y rest =>
      have hy : sep y = true := by
        have hhead := List.head?_dropWhile_not (fun x => !sep x) text
        rw [show text.dropWhile _ = y :: rest from hafter] at hhead
        simpa using hhead
      rw [words_cons_sep hy]
      calc words sep (x :: text)
          = words sep ((x :: firstRun sep text) ++ y :: rest) := by
            rw [List.cons_append, ← hafter, htext]
        _ = (x :: firstRun sep text) :: words sep rest := by
            rw [words_append_sep hy, hword]
            rfl

/-- Words that are each followed by a separator are read back. -/
theorem words_flatMap {x : α} (hx : sep x = true) {run : List (List α)}
    (hrun : ∀ word ∈ run, word ≠ [] ∧ ∀ y ∈ word, sep y = false) :
    words sep (run.flatMap fun word => word ++ [x]) = run := by
  induction run with
  | nil => exact words_nil sep
  | cons word run ih =>
      obtain ⟨⟨hne, hword⟩, hrest⟩ := List.forall_mem_cons.mp hrun
      rw [List.flatMap_cons, List.append_assoc, List.singleton_append, words_append_sep hx,
        words_of_run hne hword, ih hrest, List.singleton_append]

/-- The words consist of what does not separate. -/
theorem words_flatten (text : List α) : (words sep text).flatten = text.filter fun x => !sep x := by
  rw [words, List.flatten_filter_not_isEmpty]
  induction text with
  | nil => simp
  | cons x text ih =>
      obtain ⟨first, rest, hsplit⟩ := List.exists_cons_of_ne_nil (List.splitOnP_ne_nil sep text)
      rw [hsplit] at ih
      cases hx : sep x with
      | true => simp [List.splitOnP_cons_eq_if_modifyHead, hsplit, hx, ← ih]
      | false => simp [List.splitOnP_cons_eq_if_modifyHead, hsplit, hx, ← ih]

/-! ## Where words start -/

variable (sep)

/-- The places in `text`, counted from `place`, where words start; `inside` tells whether the
element before is in a word. -/
def wordStarts : Bool → Nat → List α → List Nat
  | _, _, [] => []
  | inside, place, x :: text =>
    if sep x then wordStarts false (place + 1) text
    else if inside then wordStarts true (place + 1) text
    else place :: wordStarts true (place + 1) text

variable {sep}

/-- The words are the runs at their starts. -/
theorem wordStarts_words (inside : Bool) (before text : List α) :
    (wordStarts sep inside before.length text).map
        (fun place => firstRun sep ((before ++ text).drop place)) =
      words sep (if inside then afterRun sep text else text) := by
  induction text generalizing inside before with
  | nil => cases inside <;> simp [wordStarts, afterRun]
  | cons x text ih =>
      have hnext := fun inside => ih inside (before ++ [x])
      rw [List.length_append, List.length_singleton, List.append_assoc, List.singleton_append]
        at hnext
      rw [wordStarts]
      cases hx : sep x with
      | true =>
          have hwhole : afterRun sep (x :: text) = x :: text := by simp [afterRun, hx]
          rw [if_pos rfl, hnext, if_neg Bool.false_ne_true, hwhole, ite_self, words_cons_sep hx]
      | false =>
          rw [if_neg Bool.false_ne_true]
          have hrest := hnext true
          rw [if_pos rfl] at hrest
          cases inside with
          | true =>
              have hafter : afterRun sep (x :: text) = afterRun sep text := by simp [afterRun, hx]
              rw [if_pos rfl, if_pos rfl, hrest, hafter]
          | false =>
              have hrun : firstRun sep (x :: text) = x :: firstRun sep text := by
                simp [firstRun, hx]
              rw [if_neg Bool.false_ne_true, if_neg Bool.false_ne_true, List.map_cons, hrest,
                List.drop_left, hrun, words_cons hx]

theorem wordStarts_words_text (text : List α) :
    (wordStarts sep false 0 text).map (fun place => firstRun sep (text.drop place)) =
      words sep text :=
  wordStarts_words false [] text

theorem wordStarts_length (text : List α) :
    (wordStarts sep false 0 text).length = (words sep text).length := by
  rw [← wordStarts_words_text, List.length_map]

/-- The next word starts after the one that goes on at `place`. -/
theorem lt_of_mem_wordStarts {inside : Bool} {place : Nat} {text : List α} {start : Nat}
    (hstart : start ∈ wordStarts sep inside place text) : place ≤ start ∧
      (inside = true → place + (firstRun sep text).length < start) := by
  induction text generalizing inside place with
  | nil => cases hstart
  | cons x text ih =>
      rw [wordStarts] at hstart
      cases hx : sep x with
      | true =>
          rw [if_pos hx] at hstart
          have hnone : firstRun sep (x :: text) = [] := by simp [firstRun, hx]
          have hle := (ih hstart).1
          rw [hnone, List.length_nil]
          exact ⟨by omega, fun _ => by omega⟩
      | false =>
          rw [hx, if_neg Bool.false_ne_true] at hstart
          have hrun : firstRun sep (x :: text) = x :: firstRun sep text := by simp [firstRun, hx]
          rw [hrun, List.length_cons]
          cases inside with
          | true =>
              rw [if_pos rfl] at hstart
              obtain ⟨hle, hlt⟩ := ih hstart
              have hlt := hlt rfl
              exact ⟨by omega, fun _ => by omega⟩
          | false =>
              rw [if_neg Bool.false_ne_true] at hstart
              refine ⟨?_, fun hinside => by cases hinside⟩
              rcases List.mem_cons.mp hstart with rfl | hstart
              · exact le_rfl
              · have hle := (ih hstart).1
                omega

theorem lt_length_of_mem_wordStarts {inside : Bool} {place : Nat} {text : List α} {start : Nat}
    (hstart : start ∈ wordStarts sep inside place text) : start < place + text.length := by
  induction text generalizing inside place with
  | nil => cases hstart
  | cons x text ih =>
      have hnext : ∀ inside, start ∈ wordStarts sep inside (place + 1) text →
          start < place + (x :: text).length := by
        intro inside hmem
        have hlt := ih hmem
        rw [List.length_cons]
        omega
      rw [wordStarts] at hstart
      split_ifs at hstart
      · exact hnext _ hstart
      · exact hnext _ hstart
      · rcases List.mem_cons.mp hstart with rfl | hstart
        · rw [List.length_cons]
          omega
        · exact hnext _ hstart

/-- A word ends before the next one starts. -/
theorem wordStarts_spaced (inside : Bool) (before text : List α) :
    (wordStarts sep inside before.length text).Pairwise fun start next =>
      start + (firstRun sep ((before ++ text).drop start)).length < next := by
  induction text generalizing inside before with
  | nil => exact List.Pairwise.nil
  | cons x text ih =>
      have hnext := fun inside => ih inside (before ++ [x])
      rw [List.length_append, List.length_singleton, List.append_assoc, List.singleton_append]
        at hnext
      rw [wordStarts]
      cases hx : sep x with
      | true => exact hnext false
      | false =>
          rw [if_neg Bool.false_ne_true]
          cases inside with
          | true => exact hnext true
          | false =>
              refine List.pairwise_cons.mpr ⟨fun next hmem => ?_, hnext true⟩
              have hlt := (lt_of_mem_wordStarts hmem).2 rfl
              have hrun : firstRun sep (x :: text) = x :: firstRun sep text := by
                simp [firstRun, hx]
              rw [List.drop_left, hrun, List.length_cons]
              omega

end OperatingSystem
