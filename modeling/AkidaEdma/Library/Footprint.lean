import Mathlib.Data.Set.Function
import Mathlib.Order.CompletePartialOrder
import Mathlib.Order.Interval.Set.Disjoint

/-! # Writes to an interval of a memory

A memory is a function from addresses. A write replaces an interval by the contents of a
buffer; everything it leaves alone follows from its footprint.
-/
namespace AkidaEdma.Footprint
variable {β : Type*}

/-- The bytes `[lo, lo + n)` replaced by those of `g` from its start. -/
def overwrite (lo n : ℕ) (g m : ℕ → β) : ℕ → β :=
  fun x => if lo ≤ x ∧ x < lo + n then g (x - lo) else m x

theorem overwrite_inside {lo n i : ℕ} (g m : ℕ → β) (h : i < n) :
    overwrite lo n g m (lo + i) = g i := by
  have hmem : lo ≤ lo + i ∧ lo + i < lo + n := by omega
  simp [overwrite,hmem]

theorem overwrite_outside {lo n x : ℕ} (g m : ℕ → β) (h : x ∉ Set.Ico lo (lo + n)) :
    overwrite lo n g m x = m x := by
  rw [Set.mem_Ico] at h
  exact if_neg h

end AkidaEdma.Footprint
