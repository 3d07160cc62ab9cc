import Mathlib.Order.Bounds.Basic
import Mathlib.Algebra.Order.Group.Nat
import Mathlib.Algebra.Order.Ring.Nat
import Mathlib.Data.Nat.ModEq

/-! # The layout of a record

The members of a record stand one behind the other, each at the next multiple of its alignment.
**`Placed` says so of given offsets**; `endFrom` computes where the last member ends.
-/

namespace CaLang

/-- A member of a record. -/
structure Member where
  size : Nat
  align : Nat
  deriving DecidableEq

/-- `n` rounded up to a multiple of `a`. -/
def alignUp (n a : Nat) : Nat := if n % a = 0 then n else n + (a - n % a)

theorem dvd_alignUp {n a : Nat} (ha : 0 < a) : a ∣ alignUp n a := by
  unfold alignUp
  split
  · exact Nat.dvd_of_mod_eq_zero (by assumption)
  · have hlt := Nat.mod_lt n ha
    refine ⟨n / a + 1, ?_⟩
    have hdiv := Nat.div_add_mod n a
    rw [Nat.mul_add, Nat.mul_one]
    omega

theorem le_alignUp (n a : Nat) : n ≤ alignUp n a := by
  unfold alignUp
  split <;> omega

/-- **Rounding up gives the least multiple at or after `n`.** -/
theorem alignUp_isLeast (n : Nat) {a : Nat} (ha : 0 < a) :
    IsLeast {m | n ≤ m ∧ a ∣ m} (alignUp n a) := by
  refine ⟨⟨le_alignUp n a, dvd_alignUp ha⟩, fun m ⟨hle, hdvd⟩ => ?_⟩
  unfold alignUp
  split
  · exact hle
  · rename_i hne
    obtain ⟨k, rfl⟩ := hdvd
    have hdiv := Nat.div_add_mod n a
    have hlt := Nat.mod_lt n ha
    have hk : n / a < k := by
      by_contra hk
      have hmul : a * k ≤ a * (n / a) := Nat.mul_le_mul_left a (by omega)
      omega
    have hmul : a * (n / a + 1) ≤ a * k := Nat.mul_le_mul_left a hk
    rw [Nat.mul_add, Nat.mul_one] at hmul
    omega

/-- The members `ms`, placed from `start` on at `offsets`, end at `fin`. -/
def Placed (start : Nat) : List Member → List Nat → Nat → Prop
  | [], [], fin => fin = start
  | m :: ms, o :: os, fin =>
      IsLeast {k | start ≤ k ∧ m.align ∣ k} o ∧ Placed (o + m.size) ms os fin
  | _, _, _ => False

/-- The end of the last member. -/
def endFrom (start : Nat) : List Member → Nat
  | [] => start
  | m :: ms => endFrom (alignUp start m.align + m.size) ms

/-- The greatest alignment, at least `n`. -/
def maxAlignFrom (n : Nat) : List Member → Nat
  | [] => n
  | m :: ms => maxAlignFrom (max n m.align) ms

theorem le_endFrom (start : Nat) (ms : List Member) : start ≤ endFrom start ms := by
  induction ms generalizing start with
  | nil => exact le_rfl
  | cons m ms ih => exact (le_alignUp start m.align).trans ((Nat.le_add_right _ _).trans (ih _))

theorem endFrom_append (start : Nat) (ms ms' : List Member) :
    endFrom start (ms ++ ms') = endFrom (endFrom start ms) ms' := by
  induction ms generalizing start with
  | nil => rfl
  | cons m ms ih => exact ih _

theorem maxAlignFrom_append (n : Nat) (ms ms' : List Member) :
    maxAlignFrom n (ms ++ ms') = maxAlignFrom (maxAlignFrom n ms) ms' := by
  induction ms generalizing n with
  | nil => rfl
  | cons m ms ih => exact ih _

theorem le_maxAlignFrom (n : Nat) (ms : List Member) : n ≤ maxAlignFrom n ms := by
  induction ms generalizing n with
  | nil => exact le_rfl
  | cons m ms ih => exact (Nat.le_max_left ..).trans (ih _)

end CaLang
