import OperatingSystem.Words

/-!
# Strings in a buffer

A string starts somewhere in a buffer and ends before the next terminator. What is written
elsewhere in the buffer does not change it; if the separators of a text are overwritten by
terminators, the strings at the starts of its words are these words.
-/

namespace OperatingSystem

variable {α : Type*} [DecidableEq α] (nul : α)

/-- The string that starts at a place of a buffer. -/
def stringAt (buffer : List α) (start : Nat) : List α :=
  (buffer.drop start).takeWhile fun x => x ≠ nul

/-- A buffer in which a text has been written from `start` on. -/
def overwrite (buffer : List α) (start : Nat) (text : List α) : List α :=
  buffer.take start ++ (text ++ buffer.drop (start + text.length))

variable {nul}

theorem head?_stringAt (buffer : List α) (start : Nat) {x : α} (hx : x ≠ nul) :
    (stringAt nul buffer start).head? = some x ↔ buffer[start]? = some x := by
  rw [stringAt, ← List.head?_drop]
  cases buffer.drop start with
  | nil => simp
  | cons y rest =>
      by_cases hy : y = nul
      · simp [hy, Ne.symm hx]
      · simp [hy]

theorem nul_notMem_stringAt (buffer : List α) (start : Nat) : nul ∉ stringAt nul buffer start := by
  intro hmem
  simpa using List.mem_takeWhile_imp hmem

/-- A string is followed by a terminator, unless it runs to the end of the buffer. -/
theorem stringAt_eq_of_terminated {buffer before text after : List α} {start : Nat}
    (hbuffer : buffer = before ++ (text ++ nul :: after)) (hstart : before.length = start)
    (htext : nul ∉ text) : stringAt nul buffer start = text := by
  rw [stringAt, hbuffer, ← hstart, List.drop_left]
  rw [List.takeWhile_append_of_pos]
  · simp
  · intro x hx
    simpa using fun heq : x = nul => htext (heq ▸ hx)

/-- A string is that of the front of the buffer if it ends there. -/
theorem stringAt_append {front : List α} {place : Nat}
    (hend : place + (stringAt nul front place).length < front.length) (back : List α) :
    stringAt nul (front ++ back) place = stringAt nul front place := by
  rw [stringAt, List.drop_append_of_le_length (by omega), List.takeWhile_append, if_neg]
  · rfl
  · rw [List.length_drop]
    change ¬ (stringAt nul front place).length = _
    omega

theorem stringAt_front {front back : List α} {place : Nat}
    (hend : place + (stringAt nul (front ++ back) place).length < front.length) :
    stringAt nul (front ++ back) place = stringAt nul front place := by
  rw [stringAt, List.drop_append_of_le_length (by omega), List.takeWhile_append] at hend ⊢
  split_ifs with hwhole
  · rw [if_pos hwhole, List.length_append, List.length_drop] at hend
    omega
  · rfl

/-! ## Writing -/

section Overwrite

variable {buffer text : List α} {start place : Nat}

omit [DecidableEq α] in
theorem length_overwrite (hfits : start + text.length ≤ buffer.length) :
    (overwrite buffer start text).length = buffer.length := by
  simp only [overwrite, List.length_append, List.length_take, List.length_drop]
  omega

/-- What comes later in the buffer is not changed. -/
theorem stringAt_overwrite_after (hfits : start + text.length ≤ buffer.length)
    (hplace : start + text.length ≤ place) :
    stringAt nul (overwrite buffer start text) place = stringAt nul buffer place := by
  have hlength : (buffer.take start).length = start := List.length_take_of_le (by omega)
  have hdrop : (overwrite buffer start text).drop place = buffer.drop place := by
    rw [overwrite, List.drop_append, List.drop_append, List.drop_drop, hlength]
    rw [List.drop_eq_nil_of_le (by omega), List.drop_eq_nil_of_le (by omega), List.nil_append,
      List.nil_append]
    congr 1
    omega
  rw [stringAt, stringAt, hdrop]

/-- A string that ends before is not changed. -/
theorem stringAt_overwrite_before (hend : place + (stringAt nul buffer place).length < start)
    (hstart : start ≤ buffer.length) :
    stringAt nul (overwrite buffer start text) place = stringAt nul buffer place := by
  have hlength : (buffer.take start).length = start := List.length_take_of_le hstart
  have hfront : stringAt nul buffer place = stringAt nul (buffer.take start) place := by
    have hsplit := List.take_append_drop start buffer
    rw [← hsplit] at hend
    rw [← stringAt_front (hend.trans_eq hlength.symm), hsplit]
  rw [hfront, overwrite]
  apply stringAt_append
  rw [← hfront, hlength]
  exact hend

/-- The string that has been written, from its start or from a later place on. -/
theorem stringAt_overwrite_inside (hfits : start ≤ buffer.length) (htext : nul ∉ text)
    (hplace : start ≤ place) (hend : place ≤ start + text.length) :
    stringAt nul (overwrite buffer start (text ++ [nul])) place = text.drop (place - start) := by
  have hlength : (buffer.take start).length = start := List.length_take_of_le hfits
  have hbuffer : overwrite buffer start (text ++ [nul]) =
      (buffer.take start ++ text.take (place - start)) ++
        (text.drop (place - start) ++ nul :: buffer.drop (start + (text ++ [nul]).length)) := by
    rw [overwrite, List.append_assoc, List.append_assoc, ← List.append_assoc (text.take _),
      List.take_append_drop]
    rfl
  refine stringAt_eq_of_terminated hbuffer ?_ fun hmem => htext (List.mem_of_mem_drop hmem)
  rw [List.length_append, hlength, List.length_take_of_le (by omega)]
  omega

end Overwrite

/-! ## Words in place -/

section Blank

variable (nul) (sep : α → Bool)

/-- A text with terminators in place of its separators. -/
def blank (text : List α) : List α := text.map fun x => if sep x then nul else x

variable {nul} {sep}

omit [DecidableEq α] in
@[simp] theorem length_blank (text : List α) : (blank nul sep text).length = text.length :=
  List.length_map _

omit [DecidableEq α] in
/-- A separator is overwritten. -/
theorem set_blank {x : α} (hx : sep x = true) (before after : List α) :
    (blank nul sep before ++ x :: after).set before.length nul =
      blank nul sep (before ++ [x]) ++ after := by
  have hlength : (blank nul sep before).length = before.length := length_blank before
  rw [← hlength, List.set_append_right _ _ le_rfl, Nat.sub_self]
  simp [blank, hx]

omit [DecidableEq α] in
theorem blank_of_not_sep {x : α} (hx : sep x = false) (before after : List α) :
    blank nul sep before ++ x :: after = blank nul sep (before ++ [x]) ++ after := by
  simp [blank, hx]

/-- The string at a place is the longest run from there on. -/
theorem stringAt_blank {text : List α} (htext : nul ∉ text) (after : List α) {place : Nat}
    (hplace : place ≤ text.length) :
    stringAt nul (blank nul sep text ++ nul :: after) place = firstRun sep (text.drop place) := by
  have hlength : (blank nul sep text).length = text.length := length_blank text
  have hdrop : (blank nul sep text ++ nul :: after).drop place =
      blank nul sep (text.drop place) ++ nul :: after := by
    rw [List.drop_append_of_le_length (hlength ▸ hplace), blank, blank, List.map_drop]
  have hnot : nul ∉ text.drop place := fun hmem => htext (List.mem_of_mem_drop hmem)
  rw [stringAt, hdrop]
  generalize text.drop place = rest at hnot
  induction rest with
  | nil => simp [blank, firstRun]
  | cons x rest ih =>
      rw [List.mem_cons, not_or] at hnot
      cases hx : sep x with
      | true => simp [blank, firstRun, hx]
      | false =>
          have htail := ih hnot.2
          simp only [blank, firstRun] at htail
          simpa [blank, firstRun, hx, Ne.symm hnot.1] using htail

end Blank

end OperatingSystem
