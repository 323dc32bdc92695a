import Mathlib.Algebra.BigOperators.Group.Finset.Basic
import Mathlib.Data.Nat.ModEq

/-! # Running sums

The sums of the first elements of a sequence, up to a modulus. They determine the elements.
-/
namespace AkidaEdma.PrefixSum
open Finset

/-- A running sum. -/
def sumTo (base : ℕ) (f : ℕ → ℕ) (k : ℕ) : ℕ := base + ∑ j ∈ range k, f j

@[simp] theorem sumTo_zero (base : ℕ) (f : ℕ → ℕ) : sumTo base f 0 = base := by simp [sumTo]

theorem sumTo_succ (base : ℕ) (f : ℕ → ℕ) (k : ℕ) :
    sumTo base f (k+1) = sumTo base f k + f k := by
  rw [sumTo,sum_range_succ,sumTo,Nat.add_assoc]

theorem sumTo_congr (base : ℕ) {f g : ℕ → ℕ} {k : ℕ} (h : ∀ j < k, f j = g j) :
    sumTo base f k = sumTo base g k := by
  rw [sumTo,sumTo,sum_congr rfl fun j hj => h j (mem_range.mp hj)]

/-- A sum that is reduced at every step. -/
theorem sumTo_mod_succ (m base : ℕ) (f : ℕ → ℕ) (k : ℕ) :
    (sumTo base f k % m + f k) % m = sumTo base f (k+1) % m := by
  rw [sumTo_succ,Nat.mod_add_mod]

/-- Running sums that agree up to `m` are sums of elements that agree up to `m`. -/
theorem sumTo_modEq_iff {m : ℕ} (base : ℕ) (f g : ℕ → ℕ) (n : ℕ) :
    (∀ k < n, sumTo base f k ≡ sumTo base g k [MOD m]) ↔
      ∀ j, j + 1 < n → f j ≡ g j [MOD m] := by
  constructor
  · intro h j hj
    have hnext := h (j+1) hj
    rw [sumTo_succ,sumTo_succ] at hnext
    exact (h j (by omega)).add_left_cancel hnext
  · intro h k
    induction k with
    | zero => intro _; rw [sumTo_zero,sumTo_zero]
    | succ k ih =>
      intro hk
      rw [sumTo_succ,sumTo_succ]
      exact (ih (by omega)).add (h k hk)

end AkidaEdma.PrefixSum
