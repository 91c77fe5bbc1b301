import OperatingSystem.Parser

/-!
# Numbers in commands

`atoi` and the functions that it rests on, and what they make of a decimal without a sign.
-/

namespace OperatingSystem

open OperatingSystem.Parser

/-! ## Conversion -/

abbrev INT_MAX : Nat := 2 ^ 31 - 1
abbrev LONG_MAX : Nat := 2 ^ 63 - 1

/-- `isdigit`. -/
def isdigit (c : Char) : Bool := '0' ≤ c ∧ c ≤ '9'

/-- The number with these digits. -/
def decimal (digits : List Char) : Nat :=
  digits.foldl (fun n c => 10 * n + (c.toNat - '0'.toNat)) 0

/-- `strtol` to base 10: a number that is too large becomes the largest one. -/
def strtol (nptr : List Char) : Int :=
  match nptr.dropWhile isspace with
  | '-' :: rest => max (-2 ^ 63) (-decimal (rest.takeWhile isdigit))
  | '+' :: rest => min LONG_MAX (decimal (rest.takeWhile isdigit))
  | rest => min LONG_MAX (decimal (rest.takeWhile isdigit))

/-- `atoi`: `strtol`, converted to an `int`. -/
def atoi (nptr : List Char) : Int := (strtol nptr).bmod (2 ^ 32)

namespace Shell

/-! ## Decimals -/

/-- A decimal without a sign. -/
structure IsDecimal (number : List Char) : Prop where
  ne_nil : number ≠ []
  digits : number.all isdigit = true

theorem isspace_of_isdigit {c : Char} (hc : isdigit c = true) : isspace c = false := by
  simp only [isdigit, decide_eq_true_eq] at hc
  simp only [isspace, decide_eq_false_iff_not, not_or, not_and]
  refine ⟨?_, fun _ hle => ?_⟩
  · rintro rfl
    exact absurd hc.1 (by decide)
  · exact absurd (Char.le_trans hc.1 hle) (by decide)

section Decimal

variable {number : List Char} (hdecimal : IsDecimal number)
include hdecimal

theorem IsDecimal.strtol : strtol number = min (LONG_MAX : Int) (decimal number) := by
  obtain ⟨c, rest, rfl⟩ := List.exists_cons_of_ne_nil hdecimal.ne_nil
  have hall := List.all_eq_true.mp hdecimal.digits
  have hc := hall c List.mem_cons_self
  have hspace : (c :: rest).dropWhile isspace = c :: rest := by
    simp [isspace_of_isdigit hc]
  have hdigits : (c :: rest).takeWhile isdigit = c :: rest :=
    List.takeWhile_eq_self_iff.mpr hall
  rw [OperatingSystem.strtol, hspace]
  split
  · next heq =>
      rw [(List.cons.inj heq).1] at hc
      exact absurd hc (by decide)
  · next heq =>
      rw [(List.cons.inj heq).1] at hc
      exact absurd hc (by decide)
  · rw [hdigits]

theorem IsDecimal.atoi_eq :
    atoi number = (min 9223372036854775807 (decimal number : Int) + 2147483648) % 4294967296 -
      2147483648 := by
  have hmax : ((LONG_MAX : Nat) : Int) = 9223372036854775807 := rfl
  have hmod : (2 ^ 32 : Nat) = 4294967296 := rfl
  rw [atoi, hdecimal.strtol, hmax, hmod, Int.bmod_def]
  split
  · omega
  · omega

/-- A number that fits an `int` is read; another one becomes smaller. -/
theorem IsDecimal.atoi_le : (atoi number).toNat ≤ decimal number := by
  have hread := hdecimal.atoi_eq
  omega

theorem IsDecimal.atoi_eq_iff :
    (atoi number).toNat = decimal number ↔ decimal number ≤ INT_MAX := by
  have hread := hdecimal.atoi_eq
  have hmax : INT_MAX = 2147483647 := rfl
  omega

end Decimal

end Shell

end OperatingSystem
