import Mathlib.Algebra.BigOperators.Group.Finset.Basic
import Mathlib.Algebra.Group.Action.Defs
import Mathlib.Algebra.Order.BigOperators.Group.Finset
import Mathlib.Data.Fintype.Card
import Mathlib.Logic.Function.Basic

/-!
# Barriers

A barrier counts those who have arrived since it was passed last. The last one to arrive opens it
for everybody, and the next round begins. Whoever waits has arrived once more than the barrier has
been passed, so as long as nobody leaves early there is always someone whose arrival is missing.
-/

namespace OperatingSystem

/-- `waiting` have arrived in this round, and `round` is the number of the rounds before it. -/
structure Barrier where
  waiting : Nat
  round : Nat
deriving DecidableEq, Repr

namespace Barrier

/-- One of `count` arrives. -/
def arrive (barrier : Barrier) (count : Nat) : Barrier :=
  if barrier.waiting + 1 = count then ⟨0, barrier.round + 1⟩
  else ⟨barrier.waiting + 1, barrier.round⟩

variable {P : Type*} [Fintype P]

/-- Everyone has arrived once in each of the rounds before, and at most once in this one. -/
structure Accounts (barrier : Barrier) (arrivals : P → Nat) : Prop where
  le : ∀ p, barrier.round ≤ arrivals p
  le_succ : ∀ p, arrivals p ≤ barrier.round + 1
  sum : ∑ p, arrivals p = barrier.round * Fintype.card P + barrier.waiting
  lt : barrier.waiting < Fintype.card P

variable {barrier : Barrier} {arrivals : P → Nat}

theorem accounts_start [Nonempty P] : (⟨0, 0⟩ : Barrier).Accounts fun _ : P => 0 where
  le := fun _ => le_rfl
  le_succ := fun _ => Nat.zero_le _
  sum := by simp
  lt := Fintype.card_pos

/-- In each round someone has not arrived yet. -/
theorem Accounts.exists_absent (haccounts : barrier.Accounts arrivals) :
    ∃ p, arrivals p = barrier.round := by
  by_contra hnone
  rw [not_exists] at hnone
  have hall : ∀ p, arrivals p = barrier.round + 1 := by
    intro p
    have hle := haccounts.le p
    have hle_succ := haccounts.le_succ p
    have hne := hnone p
    omega
  have hsum := haccounts.sum
  rw [Finset.sum_congr rfl fun p _ => hall p, Finset.sum_const, Finset.card_univ, smul_eq_mul,
    Nat.mul_comm, Nat.add_mul, Nat.one_mul] at hsum
  have hlt := haccounts.lt
  omega

/-- The arrival of someone who has not arrived in this round. -/
theorem Accounts.arrive [DecidableEq P] (haccounts : barrier.Accounts arrivals) {p : P}
    (habsent : arrivals p = barrier.round) :
    (barrier.arrive (Fintype.card P)).Accounts
      (Function.update arrivals p (barrier.round + 1)) := by
  have hsum : ∑ q, Function.update arrivals p (barrier.round + 1) q =
      barrier.round * Fintype.card P + (barrier.waiting + 1) := by
    have hrest : ∑ q ∈ Finset.univ.erase p, Function.update arrivals p (barrier.round + 1) q =
        ∑ q ∈ Finset.univ.erase p, arrivals q :=
      Finset.sum_congr rfl fun q hq => Function.update_of_ne (Finset.ne_of_mem_erase hq) _ _
    have hbefore := Finset.add_sum_erase Finset.univ arrivals (Finset.mem_univ p)
    have hafter := Finset.add_sum_erase Finset.univ
      (Function.update arrivals p (barrier.round + 1)) (Finset.mem_univ p)
    rw [Function.update_self, hrest] at hafter
    have htotal := haccounts.sum
    omega
  have hbounds : ∀ q, barrier.round ≤ Function.update arrivals p (barrier.round + 1) q ∧
      Function.update arrivals p (barrier.round + 1) q ≤ barrier.round + 1 := by
    intro q
    by_cases hq : q = p
    · rw [hq, Function.update_self]
      omega
    · rw [Function.update_of_ne hq]
      exact ⟨haccounts.le q, haccounts.le_succ q⟩
  rw [Barrier.arrive]
  split_ifs with hlast
  · -- everybody has arrived, so nobody is left in the round before
    have hfull : ∀ q, Function.update arrivals p (barrier.round + 1) q = barrier.round + 1 := by
      by_contra hsome
      obtain ⟨q, hq⟩ := not_forall.mp hsome
      have hless : ∑ q, Function.update arrivals p (barrier.round + 1) q <
          ∑ _q : P, (barrier.round + 1) :=
        Finset.sum_lt_sum (fun q _ => (hbounds q).2)
          ⟨q, Finset.mem_univ q, lt_of_le_of_ne (hbounds q).2 hq⟩
      rw [hsum, Finset.sum_const, Finset.card_univ, smul_eq_mul, Nat.mul_comm (Fintype.card P),
        Nat.add_mul, Nat.one_mul, hlast] at hless
      exact Nat.lt_irrefl _ hless
    refine ⟨fun q => (hfull q).ge, fun q => (hfull q).le.trans (Nat.le_succ _), ?_, ?_⟩
    · rw [hsum, hlast, Nat.add_mul, Nat.one_mul, Nat.add_zero]
    · have hlt := haccounts.lt
      change 0 < Fintype.card P
      omega
  · refine ⟨fun q => (hbounds q).1, fun q => (hbounds q).2, hsum, ?_⟩
    have hlt := haccounts.lt
    change barrier.waiting + 1 < Fintype.card P
    omega

end Barrier

end OperatingSystem
